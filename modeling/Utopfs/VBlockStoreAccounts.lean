/-
**The accounting of requests.**

The count of a request is set when the request object is made, in one place, and the loop that
enqueues the request on the children stands in another.  For the requests of clients and for the puts
to needy children the two agree.  The get for a needed key is made with a count of 1 and enqueued on
all the other children: they agree when the store has two children and not when it has more.  Then the
first answer brings the count to zero and removes the request while other children still owe theirs,
`bs_sync` returns too early, and the later answers take the count below zero.

Main definitions:

* `VBS.State.owed` — the children that a request is made for and that have not answered it;
* `VBS.Accounts` — the count of a request is the number of those, and the request is in `m_requests`
  while it is positive;
* `VBS.CountsOthers` — the steps that make no get with a wrong count.

Main results:

* `VBS.countsOk_of_runs` — in runs of such steps the counts of all requests agree with their loops;
* `VBS.accounts_of_runs` — and the accounting holds in every state;
* `VBS.not_accounts_needy_get` — with three children it fails.
-/

import Mathlib.Tactic
import Utopfs.VBlockStoreBalance

set_option relaxedAutoImplicit false
set_option autoImplicit false

namespace Utopfs

namespace VBS

open Interleave

variable {n : ℕ}

/-- The children that a request is made for and that have not answered it: it is still to be enqueued
on them, it is in their queues, they are working on it, or it is being cancelled. -/
def State.owed (s : State n) (r : ℕ) : Finset (Fin n) :=
  {c | 0 < weight (unsending r c) s.threads + s.owes r c}

/-- A completion routine is about to remove the request. -/
def State.closing (s : State n) (r : ℕ) : Prop := ∃ c, 0 < weight (removing r c) s.threads

/-- **The accounting of a request.**  Its count is the number of children that have not answered it.
Once inserted, it is in `m_requests` while the count is positive and until the routine that brought
the count to zero has removed it. -/
structure Accounts (s : State n) (r : ℕ) : Prop where
  outstanding : (s.reqs r).outstanding = (s.owed r).card
  member : r ∈ s.requests ↔ weight (inserting r) s.threads = 0 ∧
    (0 < (s.reqs r).outstanding ∨ s.closing r)

/-- A step that takes no needed key from the queue of a child with more than one other child. -/
def CountsOthers (s : State n) : Label n → Prop
  | .drain c => ∀ key ch, (s.child c).pick = some (.needed key, ch) → key ≠ [] →
      (others c).length ≤ 1
  | _ => True

/-! ### The counts agree with the loops -/

/-- The counts of the requests agree with the loops that enqueue them. -/
structure CountsOk (s : State n) : Prop where
  made : ∀ r < s.nreq, (s.reqs r).issued = (s.reqs r).targets.length ∧ (s.reqs r).targets.Nodup
  needy : ∀ r, (s.reqs r).needy.Nodup
  puts : ∀ k ∈ s.threads, ∀ key blk needy, .needyPut key blk needy ∈ k → needy.Nodup

theorem nodup_others (c : Fin n) : (others c).Nodup := (List.nodup_finRange n).filter _

theorem CountsOk.next {s s' : State n} (hok : CountsOk s) {x : Label n} (hx : CountsOthers s x)
    (h : next s x = some s') : CountsOk s' := by
  have hputs : ∀ k ∈ s'.threads, ∀ key blk needy, .needyPut key blk needy ∈ k → needy.Nodup := by
    intro k' hk' key blk needy hmem
    rcases born_of_next h hk' hmem with ⟨k, hk, hold⟩ | hborn
    · exact hok.puts k hk key blk needy hold
    · cases hborn with
      | respond r c a hb =>
          have hb' := mem_respond hb
          simp only [Act.needyPut.injEq, reduceCtorEq, exists_false, false_or, or_false] at hb'
          obtain ⟨_, _, -, -, rfl⟩ := hb'
          exact hok.needy r
  rcases reqs_next h with ⟨hnreq, hreqs | ⟨r, c, a, hreqs⟩⟩ | ⟨q, hnreq, hreqs, hq⟩
  · exact ⟨by rw [hnreq, hreqs]; exact hok.made, by rw [hreqs]; exact hok.needy, hputs⟩
  · obtain ⟨-, -, hissued, htargets, -, -⟩ := respond_fields r c (s.reqs r) a
    refine ⟨fun r' hr' => ?_, fun r' => ?_, hputs⟩
    · rw [hnreq] at hr'
      rw [hreqs]
      by_cases hr : r' = r
      · subst hr
        rw [Function.update_self, hissued, htargets]
        exact hok.made r' hr'
      · rw [Function.update_of_ne hr]
        exact hok.made r' hr'
    · rw [hreqs]
      by_cases hr : r' = r
      · subst hr
        rw [Function.update_self]
        rcases respond_needy r' c (s.reqs r') a with hneedy | hneedy
        · rw [hneedy]
          exact hok.needy r'
        · rw [hneedy]
          exact List.nodup_nil
      · rw [Function.update_of_ne hr]
        exact hok.needy r'
  · -- the new request, by how it was made
    have hnew : q.issued = q.targets.length ∧ q.targets.Nodup ∧ q.needy.Nodup := by
      rcases hq with ⟨kind, -, rfl⟩ | ⟨c, key, ch, rfl, hp, hkey, hne, rfl⟩ |
        ⟨i, key, blk, needy, k, -, hi, rfl⟩
      · exact ⟨by simp, List.nodup_finRange n, List.nodup_nil⟩
      · have hle : (others c).length ≤ 1 := hx key ch hp hkey
        have hpos : 0 < (others c).length := List.length_pos_iff.2 hne
        refine ⟨?_, nodup_others c, List.nodup_singleton c⟩
        simp only
        omega
      · exact ⟨rfl, hok.puts _ (List.mem_of_getElem? hi) key blk needy (List.mem_cons_self ..),
          List.nodup_nil⟩
    refine ⟨fun r' hr' => ?_, fun r' => ?_, hputs⟩
    · rw [hnreq] at hr'
      rw [hreqs]
      by_cases hr : r' = s.nreq
      · rw [hr, Function.update_self]
        exact ⟨hnew.1, hnew.2.1⟩
      · rw [Function.update_of_ne hr]
        exact hok.made r' (by omega)
    · rw [hreqs]
      by_cases hr : r' = s.nreq
      · rw [hr, Function.update_self]
        exact hnew.2.2
      · rw [Function.update_of_ne hr]
        exact hok.needy r'

/-- **In runs of such steps the counts of all requests agree with their loops.** -/
theorem countsOk_of_runs {s : State n} (h : RunsWith CountsOthers s) : CountsOk s :=
  h.inv (I := CountsOk)
    ⟨fun r hr => absurd hr (Nat.not_lt_zero r), fun _ => List.nodup_nil, by simp [State.init]⟩
    fun _ _ _ hok hx hnext => hok.next hx hnext

/-! ### The accounting -/

/-- Children that owe one answer at most are counted by what they owe. -/
theorem card_owed {s : State n} {r : ℕ}
    (h : ∀ c, weight (unsending r c) s.threads + s.owes r c ≤ 1) :
    (s.owed r).card = ∑ c, (weight (unsending r c) s.threads + s.owes r c) := by
  rw [State.owed, Finset.card_filter]
  refine Finset.sum_congr rfl fun c _ => ?_
  have := h c
  split <;> omega

/-- **The accounting of a request whose count agrees with its loop.** -/
theorem accounts_of_counts {s : State n} (hok : TallyOk s.tally) {r : ℕ} (hr : r < s.nreq)
    (hissued : (s.reqs r).issued = (s.reqs r).targets.length) (hnodup : (s.reqs r).targets.Nodup)
    (hne : (s.reqs r).targets ≠ []) : Accounts s r := by
  have hlen : ((s.reqs r).outstanding : ℤ) + (s.responses r).length = (s.reqs r).targets.length := by
    rw [← hissued]
    exact hok.outstanding r
  have hsum : ∑ c, (weight (unsending r c) s.threads + s.owes r c) + (s.responses r).length =
      (s.reqs r).targets.length := hok.sum_owes r
  have hpos : 0 < (s.reqs r).targets.length := List.length_pos_iff.2 hne
  -- the index of the last answer in the history
  have hlast (c : Fin n) : (s.removals r).count c + weight (removing r c) s.threads =
      if ((s.responses r).map Prod.fst)[(s.reqs r).targets.length - 1]? = some c then 1 else 0 := by
    have h := hok.removed r c
    simp only [State.tally, hissued] at h
    simpa [hpos] using h
  constructor
  case outstanding =>
    rw [card_owed fun c => ?_]
    · omega
    · have h₁ : _ + _ + _ = _ := hok.owes r c
      have h₂ := List.nodup_iff_count_le_one.1 hnodup c
      simp only [State.tally] at h₁
      omega
  case member =>
    have hmem : r ∈ s.requests ↔ r < s.nreq ∧ weight (inserting r) s.threads = 0 ∧
      s.removals r = [] := hok.member r
    rw [hmem]
    constructor
    · rintro ⟨-, hins, hnil⟩
      refine ⟨hins, ?_⟩
      by_cases hout : 0 < (s.reqs r).outstanding
      · exact .inl hout
      · -- all the answers are in, so the last of them has still to remove the request
        have hlt : (s.reqs r).targets.length - 1 < ((s.responses r).map Prod.fst).length := by
          rw [List.length_map]
          omega
        refine .inr ⟨((s.responses r).map Prod.fst)[(s.reqs r).targets.length - 1], ?_⟩
        have h := hlast ((s.responses r).map Prod.fst)[(s.reqs r).targets.length - 1]
        rw [List.getElem?_eq_getElem hlt, if_pos rfl, hnil, List.count_nil] at h
        omega
    · rintro ⟨hins, hout⟩
      refine ⟨hr, hins, ?_⟩
      refine List.eq_nil_iff_forall_not_mem.2 fun c hc => ?_
      have hcount : 0 < (s.removals r).count c := List.count_pos_iff.2 hc
      have h := hlast c
      split at h
      · rename_i hsome
        rcases hout with hout | ⟨c', hc'⟩
        · have hnone : ((s.responses r).map Prod.fst)[(s.reqs r).targets.length - 1]? = none := by
            rw [List.getElem?_eq_none_iff, List.length_map]
            omega
          simp [hnone] at hsome
        · have h' := hlast c'
          split at h'
          · rename_i hsome'
            obtain rfl : c = c' := by simpa [hsome] using hsome'
            omega
          · omega
      · omega

/-- **The accounting of requests.**  In runs that take no needed key while there are more than two
children: the count of every request that is made for a child is the number of children that have not
answered it, and the request is in `m_requests` while that is positive; when `m_requests` is empty, no
child owes an answer to any request. -/
theorem accounts_of_runs {s : State n} (h : RunsWith CountsOthers s) :
    (∀ r < s.nreq, (s.reqs r).targets ≠ [] → Accounts s r) ∧
      (s.requests = ∅ → ∀ r c, s.owes r c = 0) := by
  have hok := tallyOk_of_runs h
  have hcounts := countsOk_of_runs h
  have hacc : ∀ r < s.nreq, (s.reqs r).targets ≠ [] → Accounts s r := fun r hr hne =>
    accounts_of_counts hok hr (hcounts.made r hr).1 (hcounts.made r hr).2 hne
  refine ⟨hacc, fun hempty r c => ?_⟩
  have howes : weight (unsending r c) s.threads + s.owes r c +
    ((s.responses r).map Prod.fst).count c = (s.reqs r).targets.count c := hok.owes r c
  by_contra hc
  have hmem : c ∈ (s.reqs r).targets := List.count_pos_iff.1 (by omega)
  have hr : r < s.nreq := by
    by_contra hge
    have : (s.reqs r).targets = [] := (hok.fresh r (by simpa [State.tally] using hge)).1
    simp [this] at hmem
  have ha := hacc r hr (List.ne_nil_of_mem hmem)
  have hins : weight (inserting r) s.threads = 0 := by
    have h₁ : weight (inserting r) s.threads ≤ 1 := hok.once r
    have h₂ : weight (unsending r c) s.threads =
      weight (inserting r) s.threads * (s.reqs r).targets.count c := hok.unsent r c
    interval_cases weight (inserting r) s.threads
    · rfl
    · omega
  have hout : 0 < (s.reqs r).outstanding := by
    rw [ha.outstanding]
    have : c ∈ s.owed r := by
      simp only [State.owed, Finset.mem_filter, Finset.mem_univ, true_and]
      omega
    exact_mod_cast Finset.card_pos.2 ⟨c, this⟩
  have := ha.member.2 ⟨hins, .inl hout⟩
  simp [hempty] at this

/-- With two children the get for a needed key is counted right. -/
theorem accounts_needy_get : ∃ s : State 2, RunsWith CountsOthers s ∧ (s.reqs 1).kind = .get [1] ∧
    (s.reqs 1).cmpl = false ∧ Accounts s 1 := by
  have hother : ∀ c : Fin 2, (others c).length ≤ 1 := by decide
  have hp : ∀ (s : State 2) (x : Label 2), true = true → CountsOthers s x := by
    intro s x _
    cases x with
    | drain c => exact fun _ _ _ _ => hother c
    | _ => trivial
  obtain ⟨s, hruns, hval⟩ : ∃ s : State 2, RunsWith CountsOthers s ∧
      decide ((s.reqs 1).kind = .get [1] ∧ (s.reqs 1).cmpl = false ∧ 1 < s.nreq ∧
        (s.reqs 1).targets ≠ []) = true :=
    Reach.exists_of_play [.client (.get [1]), .run 0, .run 0, .run 0, .drain 0, .drain 1,
      .answer 0 0 (.bad (.notFoundError "no block")), .run 1,
      .answer 1 0 (.bad (.internalError "down")), .run 2, .run 2, .drain 0, .run 3, .run 3, .drain 1]
      (p := fun _ _ => true) hp (by decide +kernel)
  obtain ⟨hkind, hcmpl, hlt, hne⟩ := of_decide_eq_true hval
  exact ⟨s, hruns, hkind, hcmpl, (accounts_of_runs hruns).1 1 hlt hne⟩

/-- **With three children it is not.**  The get for a needed key is enqueued on two of them with a
count of 1.  The first answer brings the count to zero and removes the request; `m_requests` is empty,
and the other child still has it.  The answer of that child takes the count to `-1`. -/
theorem not_accounts_needy_get :
    (∃ s : State 3, Runs s ∧ 1 < s.nreq ∧ (s.reqs 1).targets = [1, 2] ∧ s.requests = ∅ ∧
      s.owes 1 2 = 1 ∧ ¬ Accounts s 1) ∧
    ∃ s : State 3, Runs s ∧ (s.reqs 1).outstanding = -1 := by
  constructor
  · obtain ⟨s, hruns, hval⟩ : ∃ s : State 3, Runs s ∧ decide (1 < s.nreq ∧
        (s.reqs 1).targets = [1, 2] ∧ s.requests = ∅ ∧ s.owes 1 2 = 1 ∧
        (s.reqs 1).outstanding = 0) = true :=
      Reach.exists_of_play [.client (.get [1]), .run 0, .run 0, .run 0, .run 0, .drain 0, .drain 1,
        .drain 2, .answer 0 0 (.bad (.notFoundError "no block")), .run 1,
        .answer 1 0 (.bad (.internalError "down")), .answer 2 0 (.bad (.internalError "down")),
        .run 3, .run 3, .drain 0, .run 4, .run 4, .run 4, .drain 1, .drain 2,
        .answer 1 1 (.bad (.internalError "down")), .run 5]
        (p := fun _ _ => true) (fun _ _ _ => trivial) (by decide +kernel)
    obtain ⟨hlt, htargets, hempty, howes, hout⟩ := of_decide_eq_true hval
    refine ⟨s, hruns, hlt, htargets, hempty, howes, fun ha => ?_⟩
    have hmem : (2 : Fin 3) ∈ s.owed 1 := by
      simp only [State.owed, Finset.mem_filter, Finset.mem_univ, true_and]
      omega
    have hpos : 0 < (s.owed 1).card := Finset.card_pos.2 ⟨2, hmem⟩
    have := ha.outstanding
    omega
  · obtain ⟨s, hruns, hval⟩ : ∃ s : State 3, Runs s ∧ decide ((s.reqs 1).outstanding = -1) = true :=
      Reach.exists_of_play [.client (.get [1]), .run 0, .run 0, .run 0, .run 0, .drain 0, .drain 1,
        .drain 2, .answer 0 0 (.bad (.notFoundError "no block")), .run 1,
        .answer 1 0 (.bad (.internalError "down")), .answer 2 0 (.bad (.internalError "down")),
        .run 3, .run 3, .drain 0, .run 4, .run 4, .run 4, .drain 1, .drain 2,
        .answer 1 1 (.bad (.internalError "down")), .run 5, .answer 2 1 (.bad (.internalError "down"))]
        (p := fun _ _ => true) (fun _ _ _ => trivial) (by decide +kernel)
    exact ⟨s, hruns, of_decide_eq_true hval⟩

end VBS

end Utopfs
