/-
**The books of a block store balance.**

Each of the entries that a step can make in the books of `Utopfs/VBlockStoreTally.lean` keeps them
balanced, so they balance in every state of every run.

Main results:

* `VBS.TallyOk.entry` — an entry keeps the books balanced;
* `VBS.tallyOk_of_runs` — the books balance in every state of every run;
* `VBS.TallyOk.sum_owes`, `VBS.TallyOk.length_lt` — what is owed in all, and what has been answered.
-/

import Utopfs.VBlockStoreTally

set_option relaxedAutoImplicit false
set_option autoImplicit false

namespace Utopfs

namespace VBS

open Interleave

variable {n : ℕ}

/-! ### The books balance -/

/-- A request that is not there yet has no books. -/
theorem TallyOk.blank {t : Tally n} (h : TallyOk t) {r : ℕ} (hr : t.nreq ≤ r) :
    t.responses r = [] ∧ (∀ c, t.owes r c = 0) ∧ (∀ c, t.unsent r c = 0) ∧
      ∀ c, (t.removals r).count c = 0 ∧ t.removing r c = 0 := by
  obtain ⟨htargets, hissued, -⟩ := h.fresh r hr
  have hzero (c : Fin n) :
      t.unsent r c + t.owes r c + ((t.responses r).map Prod.fst).count c = 0 := by
    simpa [htargets] using h.owes r c
  have hresp : t.responses r = [] := by
    refine List.eq_nil_iff_forall_not_mem.2 fun x hx => ?_
    have := List.count_pos_iff.2 (List.mem_map_of_mem (f := Prod.fst) hx)
    have := hzero x.1
    omega
  refine ⟨hresp, fun c => by have := hzero c; omega, fun c => by have := hzero c; omega,
    fun c => ?_⟩
  have := h.removed r c
  rw [if_neg (by simp [hissued])] at this
  omega

theorem TallyOk.new {t t' : Tally n} (h : TallyOk t) {q : Request n} (hq : NewReq t t' q) :
    TallyOk t' := by
  obtain ⟨hmade, hsucc, hout, rfl⟩ := hq
  obtain ⟨hresp, howes, hsent, hrem⟩ := h.blank le_rfl
  obtain ⟨-, -, hins⟩ := h.fresh t.nreq le_rfl
  constructor
  case fresh =>
    intro r hr
    have hr' : t.nreq + 1 ≤ r := hr
    have hne : r ≠ t.nreq := by omega
    simpa [Function.update_of_ne hne, Ne.symm hne] using h.fresh r (by omega)
  case made =>
    intro r hr
    have hr' : r < t.nreq + 1 := hr
    by_cases hne : r = t.nreq
    · subst hne
      simpa using hmade
    · simpa [Function.update_of_ne hne] using h.made r (by omega)
  case once =>
    intro r
    by_cases hr : t.nreq = r
    · subst hr
      simp [hins]
    · simpa [hr] using h.once r
  case unsent =>
    intro r c
    by_cases hr : t.nreq = r
    · subst hr
      simp [hins, hsent]
    · simpa [hr, Function.update_of_ne (Ne.symm hr)] using h.unsent r c
  case owes =>
    intro r c
    by_cases hr : t.nreq = r
    · subst hr
      simp [hresp, howes, hsent]
    · simpa [hr, Function.update_of_ne (Ne.symm hr)] using h.owes r c
  case outstanding =>
    intro r
    by_cases hr : t.nreq = r
    · subst hr
      simp [hresp, hout]
    · simpa [Function.update_of_ne (Ne.symm hr)] using h.outstanding r
  case succeeded =>
    intro r
    by_cases hr : t.nreq = r
    · subst hr
      simp [hresp, hsucc]
    · simpa [Function.update_of_ne (Ne.symm hr)] using h.succeeded r
  case removed =>
    intro r c
    by_cases hr : t.nreq = r
    · subst hr
      simp [hresp, hrem]
    · simpa [Function.update_of_ne (Ne.symm hr)] using h.removed r c
  case member =>
    intro r
    by_cases hr : t.nreq = r
    · subst hr
      simpa using fun hmem => absurd ((h.member t.nreq).1 hmem).1 (lt_irrefl _)
    · have := h.member r
      simp only [hr, if_false, Nat.add_zero]
      rw [this]
      constructor
      · exact fun ⟨h₁, h₂⟩ => ⟨by omega, h₂⟩
      · exact fun ⟨h₁, h₂⟩ => ⟨by omega, h₂⟩

/-- A request that has still to be inserted has not been removed. -/
theorem TallyOk.removals_eq_nil {t : Tally n} (h : TallyOk t) {r : ℕ} (hr : 0 < t.inserting r) :
    t.removals r = [] := by
  refine List.eq_nil_iff_forall_not_mem.2 fun c hc => ?_
  have hcount : 0 < (t.removals r).count c := List.count_pos_iff.2 hc
  obtain ⟨-, hlast⟩ := h.closed (r := r) (c := c) (by omega)
  have := h.inserting_eq_zero (List.mem_of_getElem? hlast)
  omega

theorem TallyOk.insert {t t' : Tally n} (h : TallyOk t) {r : ℕ} {cs : List (Fin n)}
    (hr : Inserts t t' r cs) : TallyOk t' := by
  obtain ⟨ht, hins, hsent, hlast⟩ := hr
  have hone : t.inserting r = 1 := by
    have h₁ := hins r
    have h₂ := h.once r
    rw [if_pos rfl] at h₁
    omega
  have hzero : t'.inserting r = 0 := by
    have h₁ := hins r
    rw [if_pos rfl] at h₁
    omega
  have hother (r' : ℕ) (hr : r ≠ r') : t'.inserting r' = t.inserting r' := by
    have h₁ := hins r'
    rw [if_neg hr] at h₁
    omega
  have hnreq : t'.nreq = t.nreq := by rw [ht]
  have hreqs : t'.reqs = t.reqs := by rw [ht]
  have hresp : t'.responses = t.responses := by rw [ht]
  have hremovals : t'.removals = t.removals := by rw [ht]
  have hremoving : t'.removing = t.removing := by rw [ht]
  have hrequests : t'.requests = Insert.insert r t.requests := by rw [ht]
  have howes (r' : ℕ) (c : Fin n) :
      t'.owes r' c = t.owes r' c + if r = r' then cs.count c else 0 := by rw [ht]
  constructor
  case fresh =>
    intro r' hr'
    rw [hnreq] at hr'
    obtain ⟨h₁, h₂, h₃⟩ := h.fresh r' hr'
    refine ⟨by rw [hreqs, h₁], by rw [hreqs, h₂], ?_⟩
    have := hins r'
    omega
  case made =>
    rw [hnreq, hreqs]
    exact h.made
  case once =>
    intro r'
    have h₁ := hins r'
    have h₂ := h.once r'
    omega
  case unsent =>
    intro r' c
    rw [hreqs]
    by_cases hr : r = r'
    · subst hr
      rw [hzero, hlast hzero c, Nat.zero_mul]
    · have h₁ := hsent r' c
      rw [if_neg hr] at h₁
      rw [hother r' hr, ← h.unsent r' c]
      omega
  case owes =>
    intro r' c
    have h₁ := h.owes r' c
    have h₂ := hsent r' c
    rw [hreqs, hresp, howes r' c]
    omega
  case outstanding =>
    rw [hreqs, hresp]
    exact h.outstanding
  case succeeded =>
    rw [hreqs, hresp]
    exact h.succeeded
  case removed =>
    rw [hreqs, hresp, hremovals, hremoving]
    exact h.removed
  case member =>
    intro r'
    rw [hnreq, hremovals, hrequests, Finset.mem_insert, h.member r']
    by_cases hr : r = r'
    · subst hr
      have hlt : r < t.nreq := by
        by_contra hge
        have := (h.fresh r (by omega)).2.2
        omega
      simp [hlt, hzero, h.removals_eq_nil (r := r) (by omega)]
    · rw [hother r' hr]
      simp [Ne.symm hr]

/-- The answer that brings the count to zero is the last one that the request was made for. -/
theorem last_concat {out issued : ℤ} {cs : List (Fin n)} (hout : out + cs.length = issued)
    (c c' : Fin n) :
    ((if 0 < issued ∧ cs[issued.toNat - 1]? = some c' then 1 else 0) +
      if out - 1 = 0 ∧ c = c' then 1 else 0) =
    if 0 < issued ∧ (cs ++ [c])[issued.toNat - 1]? = some c' then 1 else 0 := by
  by_cases hpos : 0 < issued
  · rcases lt_trichotomy (issued.toNat - 1) cs.length with hlt | heq | hgt
    · have hne : out - 1 ≠ 0 := by omega
      simp [hpos, hne, List.getElem?_append_left hlt]
    · have hz : out - 1 = 0 := by omega
      simp [hpos, hz, heq]
    · have hne : out - 1 ≠ 0 := by omega
      have h₁ : cs[issued.toNat - 1]? = none := by simp; omega
      have h₂ : (cs ++ [c])[issued.toNat - 1]? = none := by simp; omega
      simp [hne, h₁, h₂]
  · have hne : out - 1 ≠ 0 := by omega
    simp [hpos, hne]

theorem TallyOk.respond {t t' : Tally n} (h : TallyOk t) {r : ℕ} {c : Fin n} {a : Answer}
    (hr : Responds t t' r c a) : TallyOk t' := by
  obtain ⟨ht, howes⟩ := hr
  obtain ⟨-, -, hissued, htargets, hout, hsucc⟩ := respond_fields r c (t.reqs r) a
  have hinserting : t'.inserting = t.inserting := by rw [ht]
  have hunsent : t'.unsent = t.unsent := by rw [ht]
  have hresp (r' : ℕ) : t'.responses r' = t.responses r' ++ if r = r' then [(c, a.isGood)] else [] := by
    rw [ht]
  have hself : t'.reqs r = (VBS.respond r c (t.reqs r) a).1 := by
    rw [ht]
    exact Function.update_self ..
  have hother (r' : ℕ) (hr : r ≠ r') : t'.reqs r' = t.reqs r' := by
    rw [ht]
    exact Function.update_of_ne (Ne.symm hr) ..
  have htarget (r' : ℕ) : (t'.reqs r').targets = (t.reqs r').targets := by
    by_cases hr : r = r'
    · subst hr
      rw [hself, htargets]
    · rw [hother r' hr]
  have hissue (r' : ℕ) : (t'.reqs r').issued = (t.reqs r').issued := by
    by_cases hr : r = r'
    · subst hr
      rw [hself, hissued]
    · rw [hother r' hr]
  constructor
  case fresh =>
    intro r' hr'
    rw [htarget, hissue, hinserting]
    refine h.fresh r' ?_
    rw [ht] at hr'
    exact hr'
  case made =>
    intro r' hr'
    have hlt : r' < t.nreq := by
      rw [ht] at hr'
      exact hr'
    by_cases hr : r = r'
    · subst hr
      rw [hself]
      exact (h.made r hlt).respond r c a
    · rw [hother r' hr]
      exact h.made r' hlt
  case once =>
    rw [hinserting]
    exact h.once
  case unsent =>
    intro r' c'
    rw [hinserting, hunsent, htarget]
    exact h.unsent r' c'
  case owes =>
    intro r' c'
    have h₁ := h.owes r' c'
    have h₂ := howes r' c'
    rw [hunsent, htarget, hresp]
    by_cases hr : r = r'
    · simp only [hr, if_true, true_and, List.map_append, List.map_cons, List.map_nil,
        List.count_append, List.count_singleton, beq_iff_eq] at h₂ ⊢
      omega
    · simp only [hr, if_false, false_and, List.append_nil] at h₂ ⊢
      omega
  case outstanding =>
    intro r'
    have h₁ := h.outstanding r'
    rw [hissue, hresp]
    by_cases hr : r = r'
    · subst hr
      simp only [hself, hout, if_true, List.length_append, List.length_singleton, Nat.cast_add,
        Nat.cast_one]
      omega
    · simpa [hother r' hr, hr] using h₁
  case succeeded =>
    intro r'
    rw [hresp]
    by_cases hr : r = r'
    · subst hr
      simp [hself, hsucc, h.succeeded r]
    · simpa [hother r' hr, hr] using h.succeeded r'
  case removed =>
    intro r' c'
    have hrem : t'.removing r' c' =
        t.removing r' c' + weigh (VBS.removing r' c') (VBS.respond r c (t.reqs r) a).2 := by rw [ht]
    have hremovals : t'.removals = t.removals := by rw [ht]
    rw [hremovals, hrem, weigh_removing_respond, ← Nat.add_assoc, h.removed r' c', hissue, hresp]
    by_cases hr : r = r'
    · subst hr
      have hlen : (t.reqs r).outstanding + ((t.responses r).map Prod.fst).length =
          (t.reqs r).issued := by simpa using h.outstanding r
      simpa using last_concat hlen c c'
    · simp [hr]
  case member =>
    rw [hinserting]
    rw [ht]
    exact h.member

theorem TallyOk.tell {t t' : Tally n} (h : TallyOk t) {r : ℕ} {c : Fin n} {b : Bool}
    (hr : Tells t t' r c b) : TallyOk t' := by
  rw [hr.eq]
  exact ⟨h.fresh, h.made, h.once, h.unsent, h.owes, h.outstanding, h.succeeded, h.removed, h.member⟩

theorem TallyOk.remove {t t' : Tally n} (h : TallyOk t) {r : ℕ} {c : Fin n}
    (hr : Removes t t' r c) : TallyOk t' := by
  obtain ⟨ht, hrem⟩ := hr
  rw [ht]
  refine ⟨h.fresh, h.made, h.once, h.unsent, h.owes, h.outstanding, h.succeeded, fun r' c' => ?_,
    fun r' => ?_⟩
  · have h₁ := h.removed r' c'
    rw [hrem r' c'] at h₁
    rw [← h₁]
    by_cases hr : r = r'
    · simp only [hr, if_true, true_and, List.count_append, List.count_singleton, beq_iff_eq]
      omega
    · simp only [hr, if_false, false_and, List.append_nil]
      omega
  · have h₁ := h.member r'
    simp only [Finset.mem_erase, h₁]
    by_cases hr : r = r'
    · simp [hr]
    · simp [hr, Ne.symm hr]

/-- **An entry keeps the books balanced.** -/
theorem TallyOk.entry {t t' : Tally n} (h : TallyOk t) (he : Entry t t') : TallyOk t' := by
  cases he with
  | quiet ht => exact ht ▸ h
  | new q hq => exact h.new hq
  | insert r cs hr => exact h.insert hr
  | respond r c a hr => exact h.respond hr
  | tell r c b hr => exact h.tell hr
  | remove r c hr => exact h.remove hr

theorem tallyOk_init : TallyOk (State.init n).tally where
  fresh := fun _ _ => ⟨rfl, rfl, rfl⟩
  made := fun r hr => absurd hr (Nat.not_lt_zero r)
  once := fun _ => Nat.zero_le _
  unsent := fun _ _ => rfl
  owes := fun _ _ => rfl
  outstanding := fun _ => rfl
  succeeded := fun _ => rfl
  removed := fun _ _ => rfl
  member := fun r => by simp [State.tally, State.init]

/-- **The books balance in every state of every run.** -/
theorem tallyOk_of_runs {P : State n → Label n → Prop} {s : State n} (h : RunsWith P s) :
    TallyOk s.tally :=
  h.inv (I := fun s => TallyOk s.tally) tallyOk_init
    fun _ _ _ hok _ hnext => hok.entry (tally_next hok hnext)

/-! ### What is owed in all -/

theorem sum_count (cs : List (Fin n)) : ∑ c, cs.count c = cs.length := by
  have h := Multiset.sum_count_eq_card (s := Finset.univ) (m := (cs : Multiset (Fin n)))
    fun _ _ => Finset.mem_univ _
  simpa using h

/-- The children that have not answered a request and the answers to it add up. -/
theorem TallyOk.sum_owes {t : Tally n} (h : TallyOk t) (r : ℕ) :
    ∑ c, (t.unsent r c + t.owes r c) + (t.responses r).length = (t.reqs r).targets.length := by
  have hsum : ∑ c, (t.unsent r c + t.owes r c + ((t.responses r).map Prod.fst).count c) =
      ∑ c, (t.reqs r).targets.count c := Finset.sum_congr rfl fun c _ => h.owes r c
  rw [Finset.sum_add_distrib, sum_count, sum_count, List.length_map] at hsum
  exact hsum

/-- While a child owes an answer there are fewer answers than children. -/
theorem TallyOk.length_lt {t : Tally n} (h : TallyOk t) {r : ℕ} {c : Fin n}
    (hc : 0 < t.owes r c) : (t.responses r).length < (t.reqs r).targets.length := by
  have h₁ := h.sum_owes r
  have h₂ := Finset.single_le_sum (f := fun c => t.unsent r c + t.owes r c)
    (fun _ _ => Nat.zero_le _) (Finset.mem_univ c)
  omega

end VBS

end Utopfs
