/-
**One answer to the client.**

A client's request goes to every child and comes back from every child, in any order and, for a get,
also through the cancellations that another get's success sets off.  The client is told once: of the
first success as soon as it is in, and otherwise of the last failure.  The request is removed once,
in the completion routine of the last answer.

This is a matter of the books of `Utopfs/VBlockStoreTally.lean` alone: what the client has been told,
together with what it is about to be told, is a function of the answers so far.

Main definitions:

* `VBS.Kind.fansOut` — the requests whose client is told of the first success;
* `VBS.outcome` — what a client is to be told after the answers so far;
* `VBS.TellOk` — it has been told that, or is about to be;
* `VBS.ToldBy`, `VBS.KeepsTo` — the same for any kinds of requests and any rule.

Main results:

* `VBS.weigh_telling_respond` — what a completion routine tells the client;
* `VBS.toldBy_of_runs` — clients are told by the rule that the completion routines keep to;
* `VBS.tellOk_of_runs` — the books of the upcalls in every state of every run.
-/

import Mathlib.Tactic
import Utopfs.VBlockStoreBalance

set_option relaxedAutoImplicit false
set_option autoImplicit false

namespace Utopfs

namespace VBS

open Interleave

variable {n : ℕ}

/-- The requests whose client is told of the first success, or of the last failure if there is
none. -/
def Kind.fansOut : Kind → Bool
  | .get _ => true
  | .put _ _ => true
  | .headInsert _ => true
  | .refreshBlock _ _ => true
  | .refreshFinish _ => true
  | .refreshStart _ => false
  | .headFollow _ => false

/-- What the client of a request made for `issued` children is told after the answers so far: the
first success, or the last failure. -/
def outcome (issued : ℤ) (rs : List (Fin n × Bool)) : Option (Fin n × Bool) :=
  match rs.find? Prod.snd with
  | some x => some x
  | none => if 0 < issued then rs[issued.toNat - 1]? else none

/-- Whether a completion routine tells the client. -/
def tells (q : Request n) (a : Answer) : Bool :=
  q.cmpl && !q.succeeded && (a.isGood || q.outstanding - 1 = 0)

/-- An upcall that is made or not, among actions that tell nobody. -/
theorem weigh_telling (r : ℕ) (c : Fin n) (p : Bool) (a : Answer) {k m : List (Act n)} (r' : ℕ)
    (c' : Fin n) (b : Bool) (hk : weigh (telling r' c' b) k = 0) (hm : weigh (telling r' c' b) m = 0) :
    weigh (telling r' c' b) ((if p then .upcall r c a :: k else []) ++ m) =
      if p ∧ r = r' ∧ (c, a.isGood) = (c', b) then 1 else 0 := by
  cases p with
  | false => simp [hm]
  | true => simp [hm, hk, telling]

/-- **What a completion routine tells the client.** -/
theorem weigh_telling_respond {q : Request n} (hk : q.kind.fansOut) (r : ℕ) (c : Fin n) (a : Answer)
    (r' : ℕ) (c' : Fin n) (b : Bool) : weigh (telling r' c' b) (respond r c q a).2 =
      if tells q a ∧ r = r' ∧ (c, a.isGood) = (c', b) then 1 else 0 := by
  have hdone (p : Bool) :
      weigh (telling r' c' b) (if p then [.done r c] else []) = 0 := by cases p <;> rfl
  have hkey (p : Bool) (key : OctetSeq) :
      weigh (telling r' c' b) (if p then [.neededKey c key] else []) = 0 := by cases p <;> rfl
  have hneedy (needy : List (Fin n)) (key blk : OctetSeq) : weigh (telling r' c' b)
      (if needy = [] then [] else [.needyPut key blk needy]) = 0 := by split <;> rfl
  cases a with
  | good blk =>
      have htells : tells q (.good blk) = (!q.succeeded && q.cmpl) := by
        simp [tells, Answer.isGood, Bool.and_comm]
      rw [htells]
      cases hq : q.kind with
      | get key =>
          simp only [respond, hq, bgComplete, Request.complete, List.append_assoc]
          exact weigh_telling r c _ (.good blk) r' c' b rfl
            (by rw [weigh_append, hneedy, hdone])
      | refreshStart rid => simp [hq, Kind.fansOut] at hk
      | headFollow hn => simp [hq, Kind.fansOut] at hk
      | _ =>
          simp only [respond, hq, bpComplete, heiComplete, rfComplete, rbComplete, complete,
            Request.complete]
          exact weigh_telling r c _ (.good []) r' c' b rfl (hdone _)
  | bad exp =>
      have htells : tells q (.bad exp) = (decide (q.outstanding - 1 = 0) && !q.succeeded && q.cmpl) := by
        simp only [tells, Answer.isGood, Bool.false_or]
        cases q.cmpl <;> cases q.succeeded <;> simp
      rw [htells]
      cases hq : q.kind with
      | get key =>
          simp only [respond, hq, bgError, Request.error, List.append_assoc]
          exact weigh_telling r c _ (.bad exp) r' c' b rfl (by rw [weigh_append, hkey, hdone])
      | refreshBlock rid key =>
          simp only [respond, hq, rbMissing, Request.error, List.append_assoc]
          exact weigh_telling r c _ (.bad exp) r' c' b rfl
            (by rw [weigh_append, hdone]; rfl)
      | refreshStart rid => simp [hq, Kind.fansOut] at hk
      | headFollow hn => simp [hq, Kind.fansOut] at hk
      | _ =>
          simp only [respond, hq, bpError, heiError, rfError, error, Request.error]
          exact weigh_telling r c _ (.bad exp) r' c' b rfl (hdone _)

/-- A completion routine tells nobody about other requests. -/
theorem weigh_telling_respond_ne {r r' : ℕ} (hr : r ≠ r') (c : Fin n) (q : Request n) (a : Answer)
    (c' : Fin n) (b : Bool) : weigh (telling r' c' b) (respond r c q a).2 = 0 := by
  have h := (respond_closing r c q a).weigh_eq_zero (w := telling r' c' b) (by simp [telling, hr])
    (by simp [telling]) (by simp [telling]) (by simp [telling])
  rw [h]
  simp [telling]

/-- What one more answer, of those that the request was made for, changes in what the client is to be
told. -/
theorem outcome_concat {out issued : ℤ} {rs : List (Fin n × Bool)} (hout : out + rs.length = issued)
    (hlt : rs.length < issued) (c : Fin n) (b : Bool) (x : Fin n × Bool) :
    ((if outcome issued rs = some x then 1 else 0) +
      if (rs.any Prod.snd = false ∧ (b ∨ out - 1 = 0)) ∧ (c, b) = x then 1 else 0) =
    if outcome issued (rs ++ [(c, b)]) = some x then 1 else 0 := by
  cases hfind : rs.find? Prod.snd with
  | some y =>
      have hany : rs.any Prod.snd = true := by
        rw [List.any_eq_true]
        exact ⟨y, List.mem_of_find?_eq_some hfind, List.find?_some hfind⟩
      simp [outcome, List.find?_append, hfind, hany]
  | none =>
      have hany : rs.any Prod.snd = false := by
        rw [List.any_eq_false]
        exact List.find?_eq_none.1 hfind
      have hnone : outcome issued rs = none := by
        have h : rs[issued.toNat - 1]? = none := by simp; omega
        simp [outcome, hfind, h]
      rw [hnone]
      cases b with
      | true => simp [outcome, List.find?_append, hfind, hany]
      | false =>
          by_cases hlast : out - 1 = 0
          · have h : issued.toNat - 1 = rs.length := by omega
            have hpos : 0 < issued := by omega
            simp [outcome, List.find?_append, hfind, hany, hlast, h, hpos]
          · have h : (rs ++ [(c, false)])[issued.toNat - 1]? = none := by simp; omega
            simp [outcome, List.find?_append, hfind, hlast, h]

/-- **The client has been told, or is about to be told, what the answers so far call for.** -/
structure TellOk (t : Tally n) : Prop where
  fresh : ∀ r, t.nreq ≤ r → t.upcalls r = [] ∧ ∀ c b, t.telling r c b = 0
  told : ∀ r < t.nreq, (t.reqs r).cmpl = true → (t.reqs r).kind.fansOut = true → ∀ c b,
    (t.upcalls r).count (c, b) + t.telling r c b =
      if outcome (t.reqs r).issued (t.responses r) = some (c, b) then 1 else 0

/-- A client's request is made for all children. -/
theorem TallyOk.client {t : Tally n} (h : TallyOk t) {r : ℕ} (hr : r < t.nreq)
    (hcmpl : (t.reqs r).cmpl = true) :
    (t.reqs r).issued = n ∧ (t.reqs r).targets = List.finRange n := by
  cases h.made r hr with
  | client _ hissued htargets => exact ⟨hissued, htargets⟩
  | needyGet _ _ _ hno => simp [hcmpl] at hno
  | needyPut _ _ _ hno => simp [hcmpl] at hno

/-- A client's request is answered by fewer children than it was made for while one still owes an
answer. -/
theorem TallyOk.length_lt_issued {t : Tally n} (h : TallyOk t) {r : ℕ} (hr : r < t.nreq)
    (hcmpl : (t.reqs r).cmpl = true) {c : Fin n} (hc : 0 < t.owes r c) :
    (t.responses r).length < (t.reqs r).issued := by
  obtain ⟨hissued, htargets⟩ := h.client hr hcmpl
  have hlt := h.length_lt hc
  rw [htargets, List.length_finRange] at hlt
  rw [hissued]
  exact_mod_cast hlt

/-! ### Telling by a rule -/

section rule

variable {p : Kind → Bool} {out : ℤ → List (Fin n × Bool) → Option (Fin n × Bool)}

/-- **What the clients have been told, or are about to be told**, about requests of the kinds `p` is
a function of the answers so far. -/
structure ToldBy (p : Kind → Bool) (out : ℤ → List (Fin n × Bool) → Option (Fin n × Bool))
    (t : Tally n) : Prop where
  fresh : ∀ r, t.nreq ≤ r → t.upcalls r = [] ∧ ∀ c b, t.telling r c b = 0
  told : ∀ r < t.nreq, (t.reqs r).cmpl = true → p (t.reqs r).kind = true → ∀ c b,
    (t.upcalls r).count (c, b) + t.telling r c b =
      if out (t.reqs r).issued (t.responses r) = some (c, b) then 1 else 0

/-- The completion routines keep to the rule `out`: one more answer, of those that the request was
made for, changes what the client is to be told by what its completion routine tells it. -/
structure KeepsTo (p : Kind → Bool) (out : ℤ → List (Fin n × Bool) → Option (Fin n × Bool)) :
    Prop where
  nil : ∀ issued, out issued [] = none
  concat : ∀ (q : Request n) (rs : List (Fin n × Bool)), p q.kind = true → q.cmpl = true →
    q.outstanding + rs.length = q.issued → rs.length < q.issued → q.succeeded = rs.any Prod.snd →
    ∀ (r : ℕ) (c : Fin n) (a : Answer) (x : Fin n × Bool),
      ((if out q.issued rs = some x then 1 else 0) +
        weigh (telling r x.1 x.2) (respond r c q a).2) =
      if out q.issued (rs ++ [(c, a.isGood)]) = some x then 1 else 0

theorem ToldBy.new {t t' : Tally n} (h : ToldBy p out t) (hrule : KeepsTo p out) (hok : TallyOk t)
    {q : Request n} (hq : NewReq t t' q) : ToldBy p out t' := by
  rw [hq.eq]
  refine ⟨fun r hr => h.fresh r (Nat.le_of_succ_le hr), fun r hr hcmpl hk c b => ?_⟩
  by_cases hne : r = t.nreq
  · subst hne
    obtain ⟨hup, htell⟩ := h.fresh t.nreq le_rfl
    obtain ⟨hresp, -⟩ := hok.blank (r := t.nreq) le_rfl
    simp [hup, htell, hresp, hrule.nil]
  · simp only [Function.update_of_ne hne] at hcmpl hk ⊢
    exact h.told r (by simp only at hr; omega) hcmpl hk c b

theorem ToldBy.respond {t t' : Tally n} (h : ToldBy p out t) (hrule : KeepsTo p out) (hok : TallyOk t)
    {r : ℕ} {c : Fin n} {a : Answer} (hr : Responds t t' r c a) : ToldBy p out t' := by
  obtain ⟨ht, howes⟩ := hr
  have hpos : 0 < t.owes r c := by
    have := howes r c
    simp only [and_self, if_true] at this
    omega
  have hlt : r < t.nreq := by
    by_contra hge
    have := (hok.blank (r := r) (by omega)).2.1 c
    omega
  have hnreq : t'.nreq = t.nreq := by rw [ht]
  have hup : t'.upcalls = t.upcalls := by rw [ht]
  have htelling (r' : ℕ) (c' : Fin n) (b : Bool) : t'.telling r' c' b =
      t.telling r' c' b + weigh (VBS.telling r' c' b) (VBS.respond r c (t.reqs r) a).2 := by rw [ht]
  have hresp (r' : ℕ) : t'.responses r' = t.responses r' ++ if r = r' then [(c, a.isGood)] else [] := by
    rw [ht]
  constructor
  case fresh =>
    intro r' hr'
    rw [hnreq] at hr'
    obtain ⟨h₁, h₂⟩ := h.fresh r' hr'
    refine ⟨by rw [hup, h₁], fun c' b => ?_⟩
    rw [htelling, h₂, weigh_telling_respond_ne (by omega)]
  case told =>
    intro r' hr' hcmpl hk c' b
    rw [hnreq] at hr'
    rw [hup, htelling, hresp]
    by_cases hr : r = r'
    · subst hr
      obtain ⟨hkind, hcm, hissued, -, -, -⟩ := respond_fields r c (t.reqs r) a
      have hself : t'.reqs r = (VBS.respond r c (t.reqs r) a).1 := by
        rw [ht]
        exact Function.update_self ..
      rw [hself, hcm] at hcmpl
      rw [hself, hkind] at hk
      rw [hself, hissued, ← Nat.add_assoc, h.told r hlt hcmpl hk c' b, if_pos rfl]
      exact hrule.concat (t.reqs r) (t.responses r) hk hcmpl (hok.outstanding r)
        (hok.length_lt_issued hlt hcmpl hpos) (hok.succeeded r) r c a (c', b)
    · have hother : t'.reqs r' = t.reqs r' := by
        rw [ht]
        exact Function.update_of_ne (Ne.symm hr) ..
      rw [hother] at hcmpl hk ⊢
      rw [weigh_telling_respond_ne hr, if_neg hr, List.append_nil, Nat.add_zero]
      exact h.told r' hr' hcmpl hk c' b

theorem ToldBy.tell {t t' : Tally n} (h : ToldBy p out t) {r : ℕ} {c : Fin n} {b : Bool}
    (hr : Tells t t' r c b) : ToldBy p out t' := by
  obtain ⟨ht, htell⟩ := hr
  have hup (r' : ℕ) : t'.upcalls r' = t.upcalls r' ++ if r = r' then [(c, b)] else [] := by rw [ht]
  have hnreq : t'.nreq = t.nreq := by rw [ht]
  have hreqs : t'.reqs = t.reqs := by rw [ht]
  have hresp : t'.responses = t.responses := by rw [ht]
  constructor
  case fresh =>
    intro r' hr'
    rw [hnreq] at hr'
    obtain ⟨h₁, h₂⟩ := h.fresh r' hr'
    have hr : r ≠ r' := by
      rintro rfl
      have := htell r c b
      simp [h₂] at this
    refine ⟨by simp [hup, h₁, hr], fun c' b' => ?_⟩
    have := htell r' c' b'
    rw [h₂] at this
    omega
  case told =>
    intro r' hr' hcmpl hk c' b'
    rw [hnreq] at hr'
    rw [hreqs] at hcmpl hk ⊢
    have h₁ := h.told r' hr' hcmpl hk c' b'
    have h₂ := htell r' c' b'
    rw [hresp, hup, ← h₁]
    by_cases hr : r = r'
    · simp only [hr, if_true, true_and, List.count_append, List.count_singleton, beq_iff_eq,
        Prod.mk.injEq] at h₂ ⊢
      omega
    · simp only [hr, if_false, false_and, List.append_nil] at h₂ ⊢
      omega

theorem ToldBy.entry {t t' : Tally n} (h : ToldBy p out t) (hrule : KeepsTo p out) (hok : TallyOk t)
    (he : Entry t t') : ToldBy p out t' := by
  cases he with
  | quiet ht => exact ht ▸ h
  | new q hq => exact h.new hrule hok hq
  | insert r cs hr =>
      rw [hr.eq]
      exact ⟨h.fresh, h.told⟩
  | respond r c a hr => exact h.respond hrule hok hr
  | tell r c b hr => exact h.tell hr
  | remove r c hr =>
      rw [hr.eq]
      exact ⟨h.fresh, h.told⟩

/-- **Clients are told by the rule that the completion routines keep to**, in every state of every
run. -/
theorem toldBy_of_runs (hrule : KeepsTo p out) {P : State n → Label n → Prop} {s : State n}
    (h : RunsWith P s) : ToldBy p out s.tally := by
  have hboth : TallyOk s.tally ∧ ToldBy p out s.tally :=
    h.inv (I := fun s => TallyOk s.tally ∧ ToldBy p out s.tally)
      ⟨tallyOk_init, fun _ _ => ⟨rfl, fun _ _ => rfl⟩, fun r hr => absurd hr (Nat.not_lt_zero r)⟩
      fun _ _ _ ⟨hok, htold⟩ _ hnext =>
        ⟨hok.entry (tally_next hok hnext), htold.entry hrule hok (tally_next hok hnext)⟩
  exact hboth.2

end rule

/-- The requests that fan out keep to `outcome`. -/
theorem keepsTo_outcome : KeepsTo (n := n) Kind.fansOut outcome where
  nil issued := by simp [outcome]
  concat q rs hk hcmpl hout hlt hsucc r c a x := by
    rw [weigh_telling_respond hk r c a r x.1 x.2, ← outcome_concat hout hlt c a.isGood x]
    simp [tells, hcmpl, hsucc]

/-- **The books of the upcalls in every state of every run.** -/
theorem tellOk_of_runs {P : State n → Label n → Prop} {s : State n} (h : RunsWith P s) :
    TellOk s.tally :=
  have htold := toldBy_of_runs keepsTo_outcome h
  ⟨htold.fresh, htold.told⟩

/-- No thread has anything left to do. -/
def State.idle (s : State n) : Bool := s.threads.all List.isEmpty

theorem weight_eq_zero_of_idle {s : State n} (h : s.idle) (w : Act n → ℕ) :
    weight w s.threads = 0 := by
  refine List.sum_eq_zero fun m hm => ?_
  obtain ⟨k, hk, rfl⟩ := List.mem_map.1 hm
  have hnil : k = [] := List.isEmpty_iff.1 (List.all_eq_true.1 h k hk)
  rw [hnil, weigh_nil]

/-- A list that has one element once and no others. -/
theorem eq_singleton_of_count {α : Type} [BEq α] [LawfulBEq α] [DecidableEq (Option α)] {l : List α}
    {x : α} (h : ∀ y, l.count y = if some x = some y then 1 else 0) : l = [x] := by
  have hperm : l.Perm [x] := List.perm_iff_count.2 fun y => by
    rw [h y, List.count_singleton]
    by_cases hxy : x = y
    · simp [hxy]
    · simp [hxy]
  exact List.perm_singleton.1 hperm

/-- The client of a request that all children have answered is told something. -/
theorem outcome_isSome (hn : 0 < n) {rs : List (Fin n × Bool)} (h : rs.length = n) :
    ∃ x, outcome n rs = some x := by
  cases hfind : rs.find? Prod.snd with
  | some x => exact ⟨x, by simp [outcome, hfind]⟩
  | none =>
      have hlt : n - 1 < rs.length := by omega
      refine ⟨rs[n - 1], ?_⟩
      simp [outcome, hfind, hn, hlt]

/-- No child answers a client's request twice. -/
theorem TallyOk.responses_nodup {t : Tally n} (h : TallyOk t) {r : ℕ} (hr : r < t.nreq)
    (hcmpl : (t.reqs r).cmpl = true) : ((t.responses r).map Prod.fst).Nodup := by
  refine List.nodup_iff_count_le_one.2 fun c => ?_
  have h₁ := h.owes r c
  have h₂ : (t.reqs r).targets.count c ≤ 1 := by
    rw [(h.client hr hcmpl).2]
    exact List.nodup_iff_count_le_one.1 (List.nodup_finRange n) c
  omega

/-- **One answer to the client.**  Of a client's request that fans out to `n ≥ 1` children, in every
state of every run: no child has answered twice; what the client has been told, together with what a
completion routine is about to tell it, is the first success, or with `n` failures the last of them,
and nothing else; what has removed the request, or is about to, is the completion routine of the
`n`-th answer.  Once all children have answered and no routine is in progress, the client has been
told exactly once and the request has been removed exactly once. -/
theorem client_told_once (hn : 0 < n) {s : State n} (h : Runs s) {r : ℕ} (hr : r < s.nreq)
    (hcmpl : (s.reqs r).cmpl = true) (hk : (s.reqs r).kind.fansOut = true) :
    ((s.responses r).map Prod.fst).Nodup ∧
    (∀ x, (s.upcalls r).count x + weight (telling r x.1 x.2) s.threads =
      if outcome n (s.responses r) = some x then 1 else 0) ∧
    (∀ c, (s.removals r).count c + weight (removing r c) s.threads =
      if ((s.responses r).map Prod.fst)[n - 1]? = some c then 1 else 0) ∧
    ((s.responses r).length = n → s.idle →
      (∃ x, outcome n (s.responses r) = some x ∧ s.upcalls r = [x]) ∧
      ∃ c, ((s.responses r).map Prod.fst)[n - 1]? = some c ∧ s.removals r = [c]) := by
  have hok := tallyOk_of_runs h
  have hissued : (s.reqs r).issued = n := (hok.client hr hcmpl).1
  have hup (x : Fin n × Bool) : (s.upcalls r).count x + weight (telling r x.1 x.2) s.threads =
      if outcome n (s.responses r) = some x then 1 else 0 := by
    have h₁ := (tellOk_of_runs h).told r hr hcmpl hk x.1 x.2
    simp only [State.tally, hissued] at h₁
    exact h₁
  have hrem (c : Fin n) : (s.removals r).count c + weight (removing r c) s.threads =
      if ((s.responses r).map Prod.fst)[n - 1]? = some c then 1 else 0 := by
    have h₁ := hok.removed r c
    simp only [State.tally, hissued] at h₁
    simpa [hn] using h₁
  refine ⟨hok.responses_nodup hr hcmpl, hup, hrem, fun hlen hidle => ⟨?_, ?_⟩⟩
  · obtain ⟨x, hx⟩ := outcome_isSome hn hlen
    refine ⟨x, hx, eq_singleton_of_count fun y => ?_⟩
    rw [← hx, ← hup y, weight_eq_zero_of_idle hidle, Nat.add_zero]
  · have hlt : n - 1 < ((s.responses r).map Prod.fst).length := by
      rw [List.length_map]
      omega
    refine ⟨_, List.getElem?_eq_getElem hlt, eq_singleton_of_count fun c => ?_⟩
    rw [← List.getElem?_eq_getElem hlt, ← hrem c, weight_eq_zero_of_idle hidle, Nat.add_zero]

/-- A get of two children, the first of which does not have the block. -/
theorem get_told_once : ∃ s : State 2, Runs s ∧
    s.responses 0 = [(0, false), (1, true)] ∧ s.upcalls 0 = [(1, true)] ∧ s.removals 0 = [1] := by
  obtain ⟨s, hruns, hval⟩ : ∃ s : State 2, Runs s ∧ decide (s.nreq = 1 ∧ (s.reqs 0).cmpl = true ∧
      (s.reqs 0).kind.fansOut = true ∧ s.responses 0 = [(0, false), (1, true)] ∧
      s.idle = true) = true :=
    Reach.exists_of_play [.client (.get [1]), .run 0, .run 0, .run 0, .drain 0, .drain 1,
      .answer 0 0 (.bad (.notFoundError "no block")), .answer 1 0 (.good [7]), .run 1, .run 2,
      .run 2, .run 2, .run 2, .run 2] (p := fun _ _ => true) (fun _ _ _ => trivial)
      (by decide +kernel)
  obtain ⟨hnreq, hcmpl, hk, hresp, hidle⟩ := of_decide_eq_true hval
  obtain ⟨-, -, -, hend⟩ := client_told_once (by decide) hruns (r := 0) (by omega) hcmpl hk
  obtain ⟨⟨x, hx, hup⟩, c, hc, hrem⟩ := hend (by rw [hresp]; rfl) hidle
  rw [hresp] at hx hc
  obtain rfl : (1, true) = x := by simpa [outcome] using hx
  obtain rfl : 1 = c := by simpa using hc
  exact ⟨s, hruns, hresp, hup, hrem⟩

end VBS

end Utopfs
