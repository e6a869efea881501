/-
**The answer to a refresh start.**

A refresh start is the one request whose success is held back: no block may be refreshed before every
child has seen the start, so `rs_complete` tells the client only when it is the last answer.  `rs_error`
is the routine of all other requests: as the last answer it tells the client of the failure, but only
if no child has succeeded, because then the client has been told already.  Of a refresh start it has
not.  When the last answer is a failure and one before it was a success, neither routine calls the
client, the request is removed, and `BlockStore::bs_refresh_start` waits for good.

Main definitions:

* `VBS.startOutcome` — what the two routines tell the client;
* `VBS.State.notices` — what the client has been told, or is about to be told;
* `VBS.StartAnswered` — one upcall, after all answers, of a success if there was one.

Main results:

* `VBS.keepsTo_startOutcome` — the routines keep to `VBS.startOutcome`;
* `VBS.startAnswered_iff` — when the client is answered;
* `VBS.not_startAnswered` — two children of which the second fails after the first has succeeded.
-/

import Mathlib.Tactic
import Utopfs.VBlockStoreFanOut

set_option relaxedAutoImplicit false
set_option autoImplicit false

namespace Utopfs

namespace VBS

open Interleave

variable {n : ℕ}

/-- The requests that start a refresh. -/
def Kind.startsRefresh : Kind → Bool
  | .refreshStart _ => true
  | _ => false

/-- What the client of a refresh start made for `issued` children is told: the last answer, if it is a
success or if none was. -/
def startOutcome (issued : ℤ) (rs : List (Fin n × Bool)) : Option (Fin n × Bool) :=
  if rs.length = issued then rs.getLast?.filter fun x => x.2 || !rs.any Prod.snd else none

/-- What the client has been told, together with what a thread is about to tell it. -/
def State.notices (s : State n) (r : ℕ) (x : Fin n × Bool) : ℕ :=
  (s.upcalls r).count x + weight (telling r x.1 x.2) s.threads

/-- Every child has answered. -/
def State.AllAnswered (s : State n) (r : ℕ) : Prop := ∀ c, c ∈ (s.responses r).map Prod.fst

/-- Some child has succeeded. -/
def State.SomeGood (s : State n) (r : ℕ) : Prop := ∃ c, (c, true) ∈ s.responses r

/-- **The client is answered**: not before all children have answered, then once, and of a success
exactly if there was one. -/
structure StartAnswered (s : State n) (r : ℕ) : Prop where
  late : ∀ x, 0 < s.notices r x → s.AllAnswered r
  once : s.AllAnswered r →
    ∃ x, (∀ y, s.notices r y = if x = y then 1 else 0) ∧ (x.2 = true ↔ s.SomeGood r)

/-- **The routines keep to the rule.** -/
theorem keepsTo_startOutcome : KeepsTo (n := n) Kind.startsRefresh startOutcome where
  nil issued := by simp [startOutcome]
  concat q rs hk hcmpl hout hlt hsucc r c a x := by
    obtain ⟨rid, hkind⟩ : ∃ rid, q.kind = .refreshStart rid := by
      cases hq : q.kind with
      | refreshStart rid => exact ⟨rid, rfl⟩
      | _ => simp [hq, Kind.startsRefresh] at hk
    -- nothing is told as long as an answer is missing
    have hbefore : startOutcome q.issued rs = none := by
      rw [startOutcome, if_neg (by omega)]
    have hlast : ((rs ++ [(c, a.isGood)]).length : ℤ) = q.issued ↔ q.outstanding - 1 = 0 := by
      rw [List.length_append, List.length_singleton]
      omega
    rw [hbefore, startOutcome, List.getLast?_concat]
    simp only [hlast]
    by_cases hz : q.outstanding - 1 = 0
    · cases a with
      | good blk => simp [respond, hkind, rsComplete, hz, telling, Answer.isGood, Prod.ext_iff]
      | bad exp =>
          cases hs : rs.any Prod.snd <;> rw [hs] at hsucc <;>
            simp [respond, hkind, rsError, error, Request.error, hz, hcmpl, hsucc, hs, telling,
              Answer.isGood, Prod.ext_iff]
    · cases a with
      | good blk => simp [respond, hkind, rsComplete, hz]
      | bad exp => simp [respond, hkind, rsError, error, Request.error, hz]

/-- A list of the children without repetitions has all of them if it is long enough. -/
theorem forall_mem_iff {cs : List (Fin n)} (h : cs.Nodup) : (∀ c, c ∈ cs) ↔ cs.length = n := by
  constructor
  · intro hall
    have hperm : cs.Perm (List.finRange n) :=
      (List.perm_ext_iff_of_nodup h (List.nodup_finRange n)).2 fun c =>
        iff_of_true (hall c) (List.mem_finRange c)
    rw [hperm.length_eq, List.length_finRange]
  · intro hlen c
    have huniv : cs.toFinset = Finset.univ := by
      rw [← Finset.card_eq_iff_eq_univ, List.toFinset_card_of_nodup h, hlen, Fintype.card_fin]
    exact List.mem_toFinset.1 (huniv ▸ Finset.mem_univ c)

theorem startOutcome_eq_none {rs : List (Fin n × Bool)} (hlen : rs.length ≠ n) :
    startOutcome n rs = none := if_neg (by exact_mod_cast hlen)

theorem startOutcome_eq_some {rs : List (Fin n × Bool)} (hlen : rs.length = n) (x : Fin n × Bool) :
    startOutcome n rs = some x ↔
      rs.getLast? = some x ∧ (x.2 = true ∨ ∀ y ∈ rs, y.2 = false) := by
  rw [startOutcome, if_pos (by exact_mod_cast hlen), Option.filter_eq_some_iff]
  simp

/-- **When a refresh start is answered.**  Of a refresh start on `n ≥ 1` children, in every state of
every run: the client is answered as it should be exactly if, once all children have answered, the last
answer is a success or there was none.  Where it is, it has been told once when no routine is in
progress any more; where it is not, it has not been told and nothing is about to tell it. -/
theorem startAnswered_iff (hn : 0 < n) {s : State n} (h : Runs s) {r : ℕ} (hr : r < s.nreq)
    {rid : ℕ} (hk : (s.reqs r).kind = .refreshStart rid) :
    (StartAnswered s r ↔ (s.AllAnswered r → s.SomeGood r →
      ∃ c, (s.responses r).getLast? = some (c, true))) ∧
    (StartAnswered s r → s.AllAnswered r → s.idle →
      ∃ x, s.upcalls r = [x] ∧ (x.2 = true ↔ s.SomeGood r)) ∧
    (¬ StartAnswered s r → ∀ x, s.notices r x = 0) := by
  have hok := tallyOk_of_runs h
  have hcmpl : (s.reqs r).cmpl = true := by
    cases hok.made r hr with
    | client hcmpl _ _ => exact hcmpl
    | needyGet _ _ hget => exact absurd (hk.symm.trans hget) (by simp)
    | needyPut _ _ hput => exact absurd (hk.symm.trans hput) (by simp)
  have hnotices (x : Fin n × Bool) :
      s.notices r x = if startOutcome n (s.responses r) = some x then 1 else 0 := by
    have htold := (toldBy_of_runs keepsTo_startOutcome h).told r hr hcmpl
      (by simp [State.tally, hk, Kind.startsRefresh]) x.1 x.2
    have hissued : (s.reqs r).issued = n := (hok.client hr hcmpl).1
    simp only [State.tally, hissued] at htold
    exact htold
  have hall : s.AllAnswered r ↔ (s.responses r).length = n := by
    have hmem := forall_mem_iff (hok.responses_nodup hr hcmpl)
    rwa [List.length_map] at hmem
  have hanswered (x : Fin n × Bool) (hx : startOutcome n (s.responses r) = some x) :
      StartAnswered s r := by
    have hlen : (s.responses r).length = n := by
      by_contra hne
      simp [startOutcome_eq_none hne] at hx
    refine ⟨fun _ _ => hall.2 hlen, fun _ => ⟨x, fun y => ?_, ?_⟩⟩
    · rw [hnotices y, hx]
      simp
    · obtain ⟨hlast, hbad⟩ := (startOutcome_eq_some hlen x).1 hx
      constructor
      · intro hgood
        exact ⟨x.1, hgood ▸ List.mem_of_getLast? hlast⟩
      · rintro ⟨c, hc⟩
        exact hbad.resolve_right fun hno => by simpa using hno _ hc
  refine ⟨⟨fun hstart ha hgood => ?_, fun hlast => ?_⟩, fun hstart ha hidle => ?_, fun hno x => ?_⟩
  · obtain ⟨x, hx, hxgood⟩ := hstart.once ha
    have hsome : startOutcome n (s.responses r) = some x := by
      by_contra hne
      have := hx x
      rw [hnotices x, if_neg hne] at this
      simp at this
    have htrue : x = (x.1, true) := Prod.ext rfl (hxgood.2 hgood)
    exact ⟨x.1, htrue ▸ ((startOutcome_eq_some (hall.1 ha) x).1 hsome).1⟩
  · by_cases ha : s.AllAnswered r
    · have hlen := hall.1 ha
      by_cases hgood : s.SomeGood r
      · obtain ⟨c, hc⟩ := hlast ha hgood
        exact hanswered (c, true) ((startOutcome_eq_some hlen _).2 ⟨hc, .inl rfl⟩)
      · -- all children have failed, the last of them tells the client
        have hne : s.responses r ≠ [] := List.ne_nil_of_length_pos (by omega)
        refine hanswered ((s.responses r).getLast hne) ((startOutcome_eq_some hlen _).2
          ⟨List.getLast?_eq_some_getLast hne, .inr fun y hy => ?_⟩)
        by_contra hy'
        exact hgood ⟨y.1, (Prod.ext rfl (by simpa using hy') : y = (y.1, true)) ▸ hy⟩
    · refine ⟨fun x hx => ?_, fun ha' => absurd ha' ha⟩
      simp [hnotices x, startOutcome_eq_none (mt hall.2 ha)] at hx
  · obtain ⟨x, hx, hgood⟩ := hstart.once ha
    refine ⟨x, eq_singleton_of_count fun y => ?_, hgood⟩
    have := hx y
    rw [State.notices, weight_eq_zero_of_idle hidle, Nat.add_zero] at this
    simpa using this
  · rw [hnotices x]
    exact if_neg fun hx => hno (hanswered x hx)

/-- The second of two children succeeds after the first has failed. -/
theorem startAnswered_last : ∃ s : State 2, Runs s ∧ s.responses 0 = [(0, false), (1, true)] ∧
    StartAnswered s 0 ∧ ∃ x, s.upcalls 0 = [x] ∧ (x.2 = true ↔ s.SomeGood 0) := by
  obtain ⟨s, hruns, hval⟩ : ∃ s : State 2, Runs s ∧ decide (s.nreq = 1 ∧
      (s.reqs 0).kind = .refreshStart 7 ∧ s.responses 0 = [(0, false), (1, true)] ∧
      s.idle = true) = true :=
    Reach.exists_of_play [.client (.refreshStart 7), .run 0, .run 0, .run 0, .drain 0, .drain 1,
      .answer 0 0 (.bad (.notUniqueError "refresh id")), .answer 1 0 (.good []), .run 2, .run 2]
      (p := fun _ _ => true) (fun _ _ _ => trivial) (by decide +kernel)
  obtain ⟨hnreq, hk, hresp, hidle⟩ := of_decide_eq_true hval
  obtain ⟨hiff, htold, -⟩ := startAnswered_iff (by decide) hruns (r := 0) (by omega) hk
  have hstart : StartAnswered s 0 := hiff.2 fun _ _ => ⟨1, by rw [hresp]; rfl⟩
  have hall : s.AllAnswered 0 := by
    intro c
    rw [hresp]
    revert c
    decide
  exact ⟨s, hruns, hresp, hstart, htold hstart hall hidle⟩

/-- **A client that is never answered.**  The second of two children fails after the first has
succeeded: both have answered, no routine is in progress, the request is gone, and the client has been
told nothing. -/
theorem not_startAnswered : ∃ s : State 2, Runs s ∧ (s.reqs 0).kind = .refreshStart 7 ∧ s.nreq = 1 ∧
    s.responses 0 = [(0, true), (1, false)] ∧ s.idle = true ∧ s.removals 0 = [1] ∧
    s.upcalls 0 = [] ∧ ¬ StartAnswered s 0 := by
  obtain ⟨s, hruns, hval⟩ : ∃ s : State 2, Runs s ∧ decide (s.nreq = 1 ∧
      (s.reqs 0).kind = .refreshStart 7 ∧ s.responses 0 = [(0, true), (1, false)] ∧
      s.idle = true ∧ s.removals 0 = [1] ∧ s.upcalls 0 = []) = true :=
    Reach.exists_of_play [.client (.refreshStart 7), .run 0, .run 0, .run 0, .drain 0, .drain 1,
      .answer 0 0 (.good []), .answer 1 0 (.bad (.notUniqueError "refresh id")), .run 2]
      (p := fun _ _ => true) (fun _ _ _ => trivial) (by decide +kernel)
  obtain ⟨hnreq, hk, hresp, hidle, hgone, hup⟩ := of_decide_eq_true hval
  refine ⟨s, hruns, hk, hnreq, hresp, hidle, hgone, hup, fun hstart => ?_⟩
  have hall : s.AllAnswered 0 := by
    intro c
    rw [hresp]
    revert c
    decide
  obtain ⟨x, hx, -⟩ := hstart.once hall
  have := hx x
  rw [State.notices, weight_eq_zero_of_idle hidle, hup] at this
  simp at this

end VBS

end Utopfs
