/-
**Quiescence.**

Once the clients are quiet, the store has what is left of their requests to do: the items in the
queues, the answers of the children, the actions of the completion routines, and what these set off in
turn, the cancellations, the gets for needed keys and the puts for needy children.  Each of these can
be paid for in advance, so that every step spends something, with one exception.  A get for a needed
key that is answered with `NotFound` makes its key a needed key again, of the child that has just been
asked.  When no child has the block, two children ask each other for it without end.

Main definitions:

* `VBS.Request.cost`, `VBS.actCost`, `VBS.Child.cost`, `VBS.State.cost` — what is left to do;
* `VBS.Label.internal` — the steps that are no client's;
* `VBS.FindsNeeded` — the steps that do not answer a get for a needed key with `NotFound`.

Main results:

* `VBS.weigh_respond_le` — a completion routine costs no more than was set aside for it;
* `VBS.cost_lt` — every internal step that meets the condition spends something;
* `VBS.ends_of_finding` — the internal steps that meet it come to an end;
* `VBS.not_ends_of_missing` — a key that no child has is asked for without end.
-/

import Mathlib.Tactic
import Utopfs.VBlockStoreBalance

set_option relaxedAutoImplicit false
set_option autoImplicit false

namespace Utopfs

namespace VBS

open Interleave

variable {n : ℕ}

/-! ### What is left to do -/

/-- A put for `l` needy children: making the request, inserting it, and enqueueing, draining and
answering it for each of them. -/
def putCost (l : ℕ) : ℕ := 2 + 5 * l

/-- A needed key: taking it from the queue, and a get of at most `n` children. -/
def keyCost (n : ℕ) : ℕ := 2 + 11 * n

/-- What the completion routine of a request costs at most.  A get for a needed key is taken not to be
answered with `NotFound`. -/
def Request.cost (q : Request n) : ℕ :=
  match q.kind with
  | .get _ =>
      if q.cmpl then 4 + n + keyCost n + putCost q.needy.length else 1 + putCost q.needy.length
  | .refreshBlock _ _ => 3 + keyCost n
  | _ => 2

/-- What an action costs, beside the answers that it stands for. -/
def actCost : Act n → ℕ
  | .insert _ cs => 1 + 2 * cs.length
  | .enqueue _ _ => 2
  | .upcall _ _ _ => 1
  | .cancel _ _ left _ => 1 + left.length
  | .canceled _ _ => 0
  | .needyPut _ _ needy => putCost needy.length
  | .neededKey _ _ => 1 + keyCost n
  | .done _ _ => 1

/-- What the queues of a child cost, beside the answers that they stand for. -/
def Child.cost (n : ℕ) (ch : Child) : ℕ := ch.queued.length + keyCost n * ch.neededkeys.length

/-- What the answers cost that are still to come. -/
def Tally.cost (t : Tally n) : ℕ :=
  ∑ r ∈ Finset.range t.nreq, ∑ c, (t.unsent r c + t.owes r c) * ((t.reqs r).cost + 1)

/-- What is left to do. -/
def State.cost (s : State n) : ℕ :=
  s.tally.cost + weight actCost s.threads + ∑ c, (s.child c).cost n

/-- A step that is no client's. -/
def Label.internal : Label n → Bool
  | .client _ => false
  | _ => true

/-- A step that does not answer a get for a needed key with `NotFound`. -/
def FindsNeeded (s : State n) : Label n → Prop
  | .answer _ r (.bad exp) =>
      (∃ key, (s.reqs r).kind = .get key) → (s.reqs r).cmpl = false → isNotFound exp = false
  | _ => True

/-! ### The completion routines -/

/-- **A completion routine costs no more than was set aside for it.** -/
theorem weigh_respond_le (r : ℕ) (c : Fin n) (q : Request n) (a : Answer)
    (ha : ∀ exp key, a = .bad exp → q.kind = .get key → q.cmpl = false → isNotFound exp = false) :
    weigh actCost (respond r c q a).2 ≤ q.cost := by
  have hup (b : Bool) (a' : Answer) :
      weigh actCost (if b then [Act.upcall r c a'] else []) ≤ 1 := by cases b <;> simp [actCost]
  have hdone (b : Bool) : weigh actCost (if b then [Act.done r c] else []) ≤ 1 := by
    cases b <;> simp [actCost]
  have hplain (b b' : Bool) (a' : Answer) : weigh actCost ((if b then [Act.upcall r c a'] else []) ++
      if b' then [Act.done r c] else []) ≤ 2 := by
    rw [weigh_append]
    have := hup b a'
    have := hdone b'
    omega
  have hlast (b : Bool) (a' : Answer) :
      weigh actCost (if b then [Act.upcall r c a', .done r c] else []) ≤ 2 := by
    cases b <;> simp [actCost]
  cases hq : q.kind with
  | get key =>
      cases a with
      | good blk =>
          simp only [respond, hq, bgComplete, Request.complete, weigh_append]
          generalize hneedy : (if q.succeeded = true then [] else q.needy) = needy
          have h₁ : weigh actCost (if needy = [] then [] else [Act.needyPut key blk needy]) ≤
              putCost q.needy.length := by
            split
            · simp
            · rename_i hne
              obtain rfl : needy = q.needy := by
                rw [← hneedy] at hne ⊢
                split at hne
                · exact absurd rfl hne
                · rename_i hs
                  rw [if_neg hs]
              simp [actCost]
          have h₂ := hdone (decide (q.outstanding - 1 = 0))
          cases hc : q.cmpl with
          | true =>
              have h₃ : weigh actCost (if (!q.succeeded && true) = true then
                  [Act.upcall r c (.good blk), .cancel c key (List.finRange n) []] else []) ≤
                  2 + n := by
                cases q.succeeded <;> simp [actCost]
                omega
              simp only [Request.cost, hq, hc, if_true]
              omega
          | false =>
              simp only [Request.cost, hq, hc, Bool.and_false, Bool.false_eq_true, if_false, weigh_nil]
              omega
      | bad exp =>
          simp only [respond, hq, bgError, Request.error, weigh_append]
          have h₂ := hdone (decide (q.outstanding - 1 = 0))
          cases hc : q.cmpl with
          | true =>
              have h₁ := hup (decide (q.outstanding - 1 = 0) && !q.succeeded && true) (.bad exp)
              have h₃ : weigh actCost (if isNotFound exp = true then [Act.neededKey c key] else []) ≤
                  1 + keyCost n := by split <;> simp [actCost]
              simp only [Request.cost, hq, hc, if_true]
              omega
          | false =>
              have hno := ha exp key rfl hq hc
              simp only [Request.cost, hq, hc, hno, Bool.and_false, Bool.false_eq_true, if_false,
                weigh_nil]
              omega
  | refreshBlock rid key =>
      cases a with
      | good blk =>
          simp only [respond, hq, rbComplete, complete, Request.complete, Request.cost]
          have := hplain (!q.succeeded && q.cmpl) (decide (q.outstanding - 1 = 0)) (.good [])
          omega
      | bad exp =>
          simp only [respond, hq, rbMissing, Request.error, Request.cost, weigh_append, weigh_cons,
            weigh_nil, actCost]
          have := hup (decide (q.outstanding - 1 = 0) && !q.succeeded && q.cmpl) (.bad exp)
          have := hdone (decide (q.outstanding - 1 = 0))
          omega
  | refreshStart rid =>
      cases a with
      | good blk => simpa [respond, hq, rsComplete, Request.cost] using hlast (q.outstanding - 1 = 0) _
      | bad exp =>
          simp only [respond, hq, rsError, error, Request.error, Request.cost]
          exact hplain ..
  | headFollow hn =>
      cases a with
      | good blk => simpa [respond, hq, het, Request.cost] using hlast (q.outstanding - 1 = 0) _
      | bad exp => simpa [respond, hq, het, Request.cost] using hlast (q.outstanding - 1 = 0) _
  | _ =>
      cases a with
      | good blk =>
          simp only [respond, hq, bpComplete, heiComplete, rfComplete, complete, Request.complete,
            Request.cost]
          exact hplain ..
      | bad exp =>
          simp only [respond, hq, bpError, heiError, rfError, error, Request.error, Request.cost]
          exact hplain ..

/-- Answering a request sets nothing more aside for it. -/
theorem respond_cost_le (r : ℕ) (c : Fin n) (q : Request n) (a : Answer) :
    (respond r c q a).1.cost ≤ q.cost := by
  obtain ⟨hkind, hcmpl, -⟩ := respond_fields r c q a
  simp only [Request.cost, hkind, hcmpl]
  rcases respond_needy r c q a with hneedy | hneedy
  · rw [hneedy]
  · rw [hneedy]
    split
    · simp only [putCost, List.length_nil]
      split <;> omega
    · exact le_rfl
    · exact le_rfl

/-! ### The answers that are still to come -/

/-- A new request is paid for. -/
theorem cost_new {t t' : Tally n} (hok : TallyOk t) {q : Request n} (hq : NewReq t t' q) :
    t'.cost = t.cost + q.targets.length * (q.cost + 1) := by
  obtain ⟨-, howes, hsent, -⟩ := hok.blank (r := t.nreq) le_rfl
  rw [hq.eq]
  simp only [Tally.cost]
  rw [Finset.sum_range_succ]
  congr 1
  · refine Finset.sum_congr rfl fun r hr => Finset.sum_congr rfl fun c _ => ?_
    have hne : r ≠ t.nreq := by
      have := Finset.mem_range.1 hr
      omega
    rw [Function.update_of_ne hne, if_neg (Ne.symm hne), Nat.add_zero]
  · rw [← sum_count, Finset.sum_mul]
    refine Finset.sum_congr rfl fun c _ => ?_
    rw [Function.update_self, if_pos rfl, hsent, howes, Nat.zero_add, Nat.add_zero]

/-- A request that is inserted is to be answered by the same children. -/
theorem cost_insert {t t' : Tally n} {r : ℕ} {cs : List (Fin n)} (hr : Inserts t t' r cs) :
    t'.cost = t.cost := by
  have hnreq : t'.nreq = t.nreq := by rw [hr.eq]
  have hreqs : t'.reqs = t.reqs := by rw [hr.eq]
  simp only [Tally.cost, hnreq, hreqs]
  refine Finset.sum_congr rfl fun r' _ => Finset.sum_congr rfl fun c _ => ?_
  have howes : t'.owes r' c = t.owes r' c + if r = r' then cs.count c else 0 := by rw [hr.eq]
  have hsent := hr.unsent r' c
  congr 1
  omega

theorem cost_tell {t t' : Tally n} {r : ℕ} {c : Fin n} {b : Bool} (hr : Tells t t' r c b) :
    t'.cost = t.cost := by
  rw [hr.eq]
  rfl

theorem cost_remove {t t' : Tally n} {r : ℕ} {c : Fin n} (hr : Removes t t' r c) :
    t'.cost = t.cost := by
  rw [hr.eq]
  rfl

/-- An answer sets free what was set aside for it. -/
theorem cost_respond {t t' : Tally n} (hok : TallyOk t) {r : ℕ} {c : Fin n} {a : Answer}
    (hr : Responds t t' r c a) : t'.cost + ((t.reqs r).cost + 1) ≤ t.cost := by
  have hnreq : t'.nreq = t.nreq := by rw [hr.eq]
  have hsent : t'.unsent = t.unsent := by rw [hr.eq]
  have hreqs (r' : ℕ) : (t'.reqs r').cost ≤ (t.reqs r').cost := by
    rw [hr.eq]
    by_cases hne : r' = r
    · subst hne
      simp only [Function.update_self]
      exact respond_cost_le ..
    · simp only [Function.update_of_ne hne]
      exact le_rfl
  have hpos : 0 < t.owes r c := by
    have := hr.owes r c
    simp only [and_self, if_true] at this
    omega
  have hlt : r < t.nreq := by
    by_contra hge
    have := (hok.blank (r := r) (by omega)).2.1 c
    omega
  -- what one child owes to one request
  have hterm (r' : ℕ) (c' : Fin n) : (t'.unsent r' c' + t'.owes r' c') * ((t'.reqs r').cost + 1) +
      (if r = r' ∧ c = c' then (t.reqs r).cost + 1 else 0) ≤
      (t.unsent r' c' + t.owes r' c') * ((t.reqs r').cost + 1) := by
    have howes := hr.owes r' c'
    have hmono : (t'.unsent r' c' + t'.owes r' c') * ((t'.reqs r').cost + 1) ≤
        (t'.unsent r' c' + t'.owes r' c') * ((t.reqs r').cost + 1) :=
      Nat.mul_le_mul_left _ (Nat.succ_le_succ (hreqs r'))
    rw [hsent] at hmono ⊢
    by_cases hrc : r = r' ∧ c = c'
    · obtain ⟨rfl, rfl⟩ := hrc
      rw [if_pos ⟨rfl, rfl⟩] at howes ⊢
      have hsplit : (t.unsent r c + (t'.owes r c + 1)) * ((t.reqs r).cost + 1) =
          (t.unsent r c + t'.owes r c) * ((t.reqs r).cost + 1) + ((t.reqs r).cost + 1) := by ring
      rw [howes, hsplit]
      omega
    · rw [if_neg hrc] at howes ⊢
      rw [howes]
      exact hmono
  simp only [Tally.cost, hnreq]
  calc (∑ r' ∈ Finset.range t.nreq, ∑ c', (t'.unsent r' c' + t'.owes r' c') *
        ((t'.reqs r').cost + 1)) + ((t.reqs r).cost + 1)
      = ∑ r' ∈ Finset.range t.nreq, ∑ c', ((t'.unsent r' c' + t'.owes r' c') *
        ((t'.reqs r').cost + 1) + if r = r' ∧ c = c' then (t.reqs r).cost + 1 else 0) := by
        simp only [Finset.sum_add_distrib]
        congr 1
        rw [Finset.sum_eq_single r, Finset.sum_eq_single c]
        · simp
        · intro c' _ hc'
          simp [Ne.symm hc']
        · simp
        · intro r' _ hr'
          simp [Ne.symm hr']
        · intro hmem
          exact absurd (Finset.mem_range.2 hlt) hmem
    _ ≤ ∑ r' ∈ Finset.range t.nreq, ∑ c', (t.unsent r' c' + t.owes r' c') *
        ((t.reqs r').cost + 1) :=
        Finset.sum_le_sum fun r' _ => Finset.sum_le_sum fun c' _ => hterm r' c'

/-! ### Every internal step spends something -/

/-- Changing one child. -/
theorem sum_cost_setChild (s : State n) (c : Fin n) (ch : Child) :
    ∑ c', ((s.setChild c ch).child c').cost n + (s.child c).cost n =
      ∑ c', (s.child c').cost n + ch.cost n := by
  rw [← Finset.add_sum_erase _ _ (Finset.mem_univ c),
    ← Finset.add_sum_erase Finset.univ (fun c' => (s.child c').cost n) (Finset.mem_univ c)]
  have hrest : ∑ c' ∈ Finset.univ.erase c, ((s.setChild c ch).child c').cost n =
      ∑ c' ∈ Finset.univ.erase c, (s.child c').cost n := by
    refine Finset.sum_congr rfl fun c' hc' => ?_
    simp [State.setChild, Function.update_of_ne (Finset.ne_of_mem_erase hc')]
  rw [hrest]
  simp only [State.setChild, Function.update_self]
  omega

theorem length_others (c : Fin n) : (others c).length ≤ n :=
  (List.length_filter_le ..).trans (List.length_finRange (n := n)).le

/-- Taking a request or a needed key from the queues. -/
theorem cost_drain {s s' : State n} (hok : TallyOk s.tally) {c : Fin n}
    (h : next s (.drain c) = some s') : s'.cost < s.cost := by
  rcases next_drain h with ⟨r, ch, hp, rfl⟩ | ⟨key, ch, hp, rfl⟩
  · have hsum := sum_cost_setChild s c { ch with inflight := ch.inflight ++ [r] }
    have hlen := length_pick hp
    have hkeys := (pick_request hp).2.1
    have hcost : (s.child c).cost n = ({ ch with inflight := ch.inflight ++ [r] } : Child).cost n + 1 := by
      change (s.child c).queued.length + _ = ch.queued.length + _ + 1
      rw [hlen, hkeys]
      omega
    simp only [State.cost, tally_drain_request s hp]
    change _ + weight actCost s.threads + _ < _
    omega
  · obtain ⟨-, hkeys, hq⟩ := pick_needed hp
    have hsum := sum_cost_setChild s c ch
    have hcost : (s.child c).cost n = ch.cost n + keyCost n := by
      simp only [Child.cost, hkeys, hq, List.length_cons]
      ring
    have htally := tally_drain_needed s hp
    -- without the key there is less to do
    have hpop : (s.setChild c ch).cost + keyCost n = s.cost := by
      simp only [State.cost, htally]
      change _ + weight actCost s.threads + _ + _ = _
      omega
    have hpos : keyCost n = 2 + 11 * n := rfl
    split
    · omega
    · unfold State.needyGet
      split
      · omega
      · rename_i hne
        have hnew := cost_new (htally ▸ hok) (entry_issue (s.setChild c ch)
          (q := ⟨.get key, false, 1, false, [c], 1, others c⟩)
          (.needyGet key c rfl rfl rfl rfl hne) rfl rfl)
        have hq : (⟨.get key, false, 1, false, [c], 1, others c⟩ : Request n).cost = 8 := rfl
        have hlen := length_others c
        simp only [hq] at hnew
        simp only [State.cost] at hpop ⊢
        rw [hnew]
        change _ + weight actCost ((s.setChild c ch).threads ++ [_]) +
          ∑ c', ((s.setChild c ch).child c').cost n < _
        rw [weight_concat, weigh_cons, weigh_nil]
        simp only [actCost]
        omega

/-- Answering a request. -/
theorem cost_answer {s s' : State n} (hok : TallyOk s.tally) {c : Fin n} {r : ℕ} {a : Answer}
    (hx : FindsNeeded s (.answer c r a)) (h : next s (.answer c r a) = some s') :
    s'.cost < s.cost := by
  have htally : s'.tally.cost + ((s.reqs r).cost + 1) ≤ s.tally.cost :=
    cost_respond hok (entry_answer h)
  have hle := weigh_respond_le r c (s.reqs r) a fun exp key ha hk hc => by
    subst ha
    exact hx ⟨key, hk⟩ hc
  obtain ⟨-, hs'⟩ := next_answer h
  have hthreads : s'.threads = s.threads ++ [(respond r c (s.reqs r) a).2] := by
    rw [hs']
    rfl
  have hchild (c' : Fin n) : (s'.child c').cost n = (s.child c').cost n := by
    rw [hs']
    by_cases hc : c' = c
    · subst hc
      simp [State.spawn, State.note, State.setReq, State.setChild, Child.cost, Child.queued]
    · simp [State.spawn, State.note, State.setReq, State.setChild, Function.update_of_ne hc]
  simp only [State.cost, hthreads, weight_concat, hchild]
  omega

section run

variable {s s' : State n} {i : ℕ} {b : Act n} {k m : List (Act n)}

/-- An action that is replaced by cheaper ones, with no answer more to come. -/
theorem cost_run (hi : s.threads[i]? = some (b :: k)) (hthreads : s'.threads = s.threads.set i (m ++ k))
    (h : s'.tally.cost + weigh actCost m + ∑ c, (s'.child c).cost n <
      s.tally.cost + actCost b + ∑ c, (s.child c).cost n) : s'.cost < s.cost := by
  have hrun := weight_run actCost hi m
  simp only [State.cost, hthreads]
  omega

theorem length_enqueue (ch : Child) (kind : Kind) (r : ℕ) :
    (ch.enqueue kind r).queued.length = ch.queued.length + 1 ∧
      (ch.enqueue kind r).neededkeys = ch.neededkeys := by
  unfold Child.enqueue
  split <;>
    · simp only [Child.queued, List.length_append, List.length_singleton, and_true]
      omega

/-- An action that leaves the children alone. -/
theorem cost_run_child (hi : s.threads[i]? = some (b :: k))
    (hthreads : s'.threads = s.threads.set i (m ++ k)) (hchild : s'.child = s.child)
    (h : s'.tally.cost + weigh actCost m < s.tally.cost + actCost b) : s'.cost < s.cost := by
  refine cost_run hi hthreads ?_
  rw [hchild]
  omega

/-- An action that changes one child. -/
theorem cost_run_setChild (hi : s.threads[i]? = some (b :: k))
    (hthreads : s'.threads = s.threads.set i (m ++ k)) {c : Fin n} {ch : Child}
    (hchild : s'.child = (s.setChild c ch).child) (htally : s'.tally = s.tally)
    (h : weigh actCost m + ch.cost n < actCost b + (s.child c).cost n) : s'.cost < s.cost := by
  refine cost_run hi hthreads ?_
  have hsum := sum_cost_setChild s c ch
  rw [hchild, htally]
  omega

theorem cost_cancel {hadit : Fin n} {key : OctetSeq} {left : List (Fin n)}
    {found : List (Fin n × ℕ)} (hi : s.threads[i]? = some (.cancel hadit key left found :: k))
    (hs' : s' = { (exec s (.cancel hadit key left found) k).1 with
      threads := s.threads.set i (exec s (.cancel hadit key left found) k).2 }) :
    s'.cost < s.cost := by
  have htally : s'.tally = s.tally := by
    rw [hs']
    exact entry_cancel hi
  cases left with
  | nil =>
      refine cost_run_child (m := found.map fun x => .canceled x.2 x.1) hi (by rw [hs']; rfl)
        (by rw [hs']; rfl) ?_
      have hw : weigh actCost (found.map fun x => Act.canceled (n := n) x.2 x.1) = 0 := by
        simp [weigh_map, actCost]
      rw [htally, hw]
      simp only [actCost]
      omega
  | cons c left =>
      rcases exec_cancel_cons s hadit key c left found k with hexec | ⟨r, -, hscan, hexec⟩
      · refine cost_run_child (m := [.cancel hadit key left found]) hi (by rw [hs', hexec]; rfl)
          (by rw [hs', hexec]) ?_
        rw [htally]
        simp only [weigh_cons, weigh_nil, actCost, List.length_cons]
        omega
      · refine cost_run_setChild (m := [.cancel hadit key left (found ++ [(c, r)])]) hi
          (by rw [hs', hexec]; rfl) (by rw [hs', hexec]) htally ?_
        have hlen := List.length_erase_of_mem (scan_some hscan).1
        have hpos := List.length_pos_of_mem (scan_some hscan).1
        simp only [weigh_cons, weigh_nil, actCost, List.length_cons, Child.cost, Child.queued,
          List.length_append]
        omega

/-- Running an action. -/
theorem cost_exec (hok : TallyOk s.tally) (hi : s.threads[i]? = some (b :: k))
    (hs' : s' = { (exec s b k).1 with threads := s.threads.set i (exec s b k).2 }) :
    s'.cost < s.cost := by
  cases b with
  | insert r cs =>
      have htally : s'.tally.cost = s.tally.cost := by
        rw [hs']
        exact cost_insert (entry_insert hi)
      refine cost_run_child (m := cs.map (Act.enqueue r)) hi (by rw [hs']; rfl) (by rw [hs']; rfl) ?_
      have hw : weigh actCost (cs.map (Act.enqueue r)) = 2 * cs.length := by
        simp [weigh_map, actCost, Nat.mul_comm]
      rw [htally, hw]
      simp only [actCost]
      omega
  | enqueue r c =>
      obtain ⟨hlen, hkeys⟩ := length_enqueue (s.child c) (s.reqs r).kind r
      refine cost_run_setChild (m := []) (c := c) (by exact hi) (by rw [hs']; rfl) (by rw [hs']; rfl)
        (by rw [hs']; exact entry_enqueue hi) ?_
      simp only [weigh_nil, actCost, Child.cost, hlen, hkeys]
      omega
  | upcall r c a =>
      have htally : s'.tally.cost = s.tally.cost := by
        rw [hs']
        exact cost_tell (entry_upcall hi)
      refine cost_run_child (m := []) hi (by rw [hs']; rfl) (by rw [hs']; rfl) ?_
      rw [htally]
      simp [actCost]
  | cancel hadit key left found => exact cost_cancel hi hs'
  | canceled r c =>
      have htally : s'.tally.cost + ((s.reqs r).cost + 1) ≤ s.tally.cost := by
        rw [hs']
        exact cost_respond hok (entry_canceled hi)
      refine cost_run_child (m := (respond r c (s.reqs r) (.bad (.internalError "canceled"))).2) hi
        (by rw [hs']; rfl) (by rw [hs']; rfl) ?_
      have hle := weigh_respond_le r c (s.reqs r) (.bad (.internalError "canceled"))
        fun exp key ha _ _ => by
          obtain rfl : Exn.internalError "canceled" = exp := by simpa using ha
          rfl
      simp only [actCost]
      omega
  | needyPut key blk needy =>
      have htally : s'.tally.cost = s.tally.cost + needy.length * 3 := by
        rw [hs']
        exact cost_new hok (entry_needyPut hi)
      refine cost_run_child (m := [.insert s.nreq needy]) hi (by rw [hs']; rfl) (by rw [hs']; rfl) ?_
      rw [htally]
      simp only [weigh_cons, weigh_nil, actCost, putCost]
      omega
  | neededKey c key =>
      refine cost_run_setChild (m := []) (c := c) hi (by rw [hs']; rfl) (by rw [hs']; rfl)
        (by rw [hs']; exact entry_neededKey hi) ?_
      simp only [weigh_nil, actCost, Child.cost, Child.queued, List.length_append,
        List.length_singleton, Nat.mul_add, Nat.mul_one]
      omega
  | done r c =>
      have hpos : 0 < s.tally.removing r c := weight_pos hi (by simp [removing])
      have hmem : r ∈ s.requests := hok.mem_of_removing hpos
      have hexec : exec s (.done r c) k =
          ({ s with requests := s.requests.erase r }.note (.removed r c), k) := if_pos hmem
      rw [hexec] at hs'
      have htally : s'.tally.cost = s.tally.cost := by
        rw [hs']
        exact cost_remove (entry_done hi)
      refine cost_run_child (m := []) hi (by rw [hs']; rfl) (by rw [hs']; rfl) ?_
      rw [htally]
      simp [actCost]

end run

/-- **Every internal step that meets the condition spends something.** -/
theorem cost_lt {s s' : State n} (hok : TallyOk s.tally) {x : Label n} (hint : x.internal)
    (hx : FindsNeeded s x) (h : next s x = some s') : s'.cost < s.cost := by
  cases x with
  | client kind => simp [Label.internal] at hint
  | drain c => exact cost_drain hok h
  | answer c r a => exact cost_answer hok hx h
  | run i =>
      obtain ⟨b, k, hi, hs'⟩ := next_run h
      exact cost_exec hok hi hs'

/-- **Quiescence.**  From every state of every run, every sequence of internal steps in which no get
for a needed key is answered with `NotFound` comes to an end. -/
theorem ends_of_finding {s : State n} (h : Runs s) :
    Ends next (fun s x => x.internal = true ∧ FindsNeeded s x) s :=
  ends_of_lt (I := fun s => TallyOk s.tally) (m := State.cost)
    (fun _ _ _ hok hx hnext => ⟨hok.entry (tally_next hok hnext), cost_lt hok hx.1 hx.2 hnext⟩)
    (tallyOk_of_runs h)

/-- A get of two children that one of them has not answered. -/
theorem ends_get : ∃ s : State 2, Runs s ∧ (s.child 0).neededkeys = [[1]] ∧
    (s.child 1).inflight = [0] ∧
    Ends next (fun s x => x.internal = true ∧ FindsNeeded s x) s := by
  obtain ⟨s, hruns, hval⟩ : ∃ s : State 2, Runs s ∧ decide ((s.child 0).neededkeys = [[1]] ∧
      (s.child 1).inflight = [0]) = true :=
    Reach.exists_of_play [.client (.get [1]), .run 0, .run 0, .run 0, .drain 0, .drain 1,
      .answer 0 0 (.bad (.notFoundError "no block")), .run 1] (p := fun _ _ => true)
      (fun _ _ _ => trivial) (by decide +kernel)
  obtain ⟨hkeys, hin⟩ := of_decide_eq_true hval
  exact ⟨s, hruns, hkeys, hin, ends_of_finding hruns⟩

/-! ### A key that no child has -/

/-- An internal step that answers nothing but `NotFound`. -/
def Label.missing : Label n → Bool
  | .client _ => false
  | .answer _ _ (.bad exp) => isNotFound exp
  | .answer _ _ (.good _) => false
  | _ => true

/-- Two children with nothing in their queues but the key `[1]`, which one of them needs. -/
structure Asking (s : State 2) : Prop where
  idle : ∀ c, (s.child c).queued = []
  keys : ∀ c, ∀ key ∈ (s.child c).neededkeys, key = [1]
  needy : ∃ c, (s.child c).neededkeys ≠ []

/-- Running the thread that was started last. -/
theorem next_run_last {s : State n} {t : List (List (Act n))} {b : Act n} {k : List (Act n)}
    (h : s.threads = t ++ [b :: k]) :
    next s (.run t.length) = some { (exec s b k).1 with threads := t ++ [(exec s b k).2] } := by
  simp [next, h]

/-- A child with nothing in its queues but needed keys. -/
theorem Asking.child_eq {s : State 2} (h : Asking s) (c : Fin 2) :
    ∃ inflight, s.child c = ⟨[], [], [], [], (s.child c).neededkeys, inflight⟩ := by
  have hidle := h.idle c
  cases hch : s.child c with
  | mk refreqs shereqs getreqs putreqs neededkeys inflight =>
      rw [hch] at hidle
      simp only [Child.queued, List.append_eq_nil_iff] at hidle
      obtain ⟨⟨⟨rfl, rfl⟩, rfl⟩, rfl⟩ := hidle
      exact ⟨inflight, rfl⟩

/-- A child `c` that needs the key `[1]` asks the other child `d`, which does not have the block
either and needs it now. -/
theorem play_asking {s : State 2} {c d : Fin 2} (hcd : d ≠ c) (hothers : others c = [d])
    {ks ks' : List OctetSeq} {inflight inflight' : List ℕ}
    (hc : s.child c = ⟨[], [], [], [], [1] :: ks, inflight⟩)
    (hd : s.child d = ⟨[], [], [], [], ks', inflight'⟩) :
    ∃ x xs s' inflight'', play next (fun _ x => x.missing) s (x :: xs) = some s' ∧
      s'.child c = ⟨[], [], [], [], ks, inflight⟩ ∧
      s'.child d = ⟨[], [], [], [], ks' ++ [[1]], inflight''⟩ := by
  let q : Request 2 := ⟨.get [1], false, 1, false, [c], 1, [d]⟩
  let q' : Request 2 := ⟨.get [1], false, 0, false, [c], 1, [d]⟩
  let s₁ : State 2 := { s with
    reqs := Function.update s.reqs s.nreq q
    nreq := s.nreq + 1
    child := Function.update s.child c ⟨[], [], [], [], ks, inflight⟩
    threads := s.threads ++ [[.insert s.nreq [d]]] }
  have h₁ : next s (.drain c) = some s₁ := by
    simp [next, hc, Child.pick, State.needyGet, hothers, State.alloc, State.spawn, State.setChild, s₁,
      q]
  let s₂ : State 2 := { s₁ with
    requests := insert s.nreq s.requests
    threads := s.threads ++ [[.enqueue s.nreq d]] }
  have h₂ : next s₁ (.run s.threads.length) = some s₂ := by
    rw [next_run_last (t := s.threads) rfl]
    rfl
  let s₃ : State 2 := { s₂ with
    child := Function.update s₁.child d ⟨[], [], [s.nreq], [], ks', inflight'⟩
    threads := s.threads ++ [[]]
    log := s.log ++ [.enqueued s.nreq d] }
  have h₃ : next s₂ (.run s.threads.length) = some s₃ := by
    rw [next_run_last (t := s.threads) rfl]
    simp [exec, Child.enqueue, State.note, State.setChild, s₃, s₂, s₁, q, hd, hcd]
  let s₄ : State 2 := { s₃ with
    child := Function.update s₁.child d ⟨[], [], [], [], ks', inflight' ++ [s.nreq]⟩ }
  have h₄ : next s₃ (.drain d) = some s₄ := by
    simp [next, Child.pick, State.setChild, s₃, s₄]
  let s₅ : State 2 := { s₄ with
    reqs := Function.update s₁.reqs s.nreq q'
    child := Function.update s₁.child d ⟨[], [], [], [], ks', (inflight' ++ [s.nreq]).erase s.nreq⟩
    threads := s.threads ++ [[]] ++ [[.neededKey d [1], .done s.nreq d]]
    log := s₄.log ++ [.answered s.nreq d (.bad (.notFoundError "no block"))] }
  have h₅ : next s₄ (.answer d s.nreq (.bad (.notFoundError "no block"))) = some s₅ := by
    simp [next, State.setChild, State.setReq, State.note, State.spawn, respond, bgError, Request.error,
      isNotFound, s₄, s₅, s₃, s₂, s₁, q, q']
  let s₆ : State 2 := { s₅ with
    child := Function.update s₁.child d
      ⟨[], [], [], [], ks' ++ [[1]], (inflight' ++ [s.nreq]).erase s.nreq⟩
    threads := s.threads ++ [[]] ++ [[.done s.nreq d]] }
  have h₆ : next s₅ (.run (s.threads ++ [[]]).length) = some s₆ := by
    rw [next_run_last (t := s.threads ++ [[]]) rfl]
    simp [exec, State.setChild, s₅, s₆]
  let s₇ : State 2 := { s₆ with
    requests := s₂.requests.erase s.nreq
    threads := s.threads ++ [[]] ++ [[]]
    log := s₅.log ++ [.removed s.nreq d] }
  have h₇ : next s₆ (.run (s.threads ++ [[]]).length) = some s₇ := by
    have hmem : s.nreq ∈ s₂.requests := Finset.mem_insert_self ..
    rw [next_run_last (t := s.threads ++ [[]]) rfl]
    rw [show exec s₆ (.done s.nreq d) [] = _ from if_pos hmem]
    rfl
  refine ⟨.drain c, [.run s.threads.length, .run s.threads.length, .drain d,
    .answer d s.nreq (.bad (.notFoundError "no block")), .run (s.threads ++ [[]]).length,
    .run (s.threads ++ [[]]).length], s₇, (inflight' ++ [s.nreq]).erase s.nreq, ?_, ?_, ?_⟩
  · rw [play_cons rfl h₁, play_cons rfl h₂, play_cons rfl h₃, play_cons rfl h₄, play_cons rfl h₅,
      play_cons rfl h₆, play_cons rfl h₇]
    rfl
  · simp [s₇, s₆, s₁, Ne.symm hcd]
  · simp [s₇, s₆]

/-- Children that ask go on asking. -/
theorem Asking.play {s : State 2} (h : Asking s) :
    ∃ x xs s', play next (fun _ x => x.missing) s (x :: xs) = some s' ∧ Asking s' := by
  obtain ⟨c, hne⟩ := h.needy
  obtain ⟨key, ks, hkeys⟩ := List.exists_cons_of_ne_nil hne
  obtain rfl : key = [1] := h.keys c key (by simp [hkeys])
  obtain ⟨d, hcd, hothers⟩ : ∃ d : Fin 2, d ≠ c ∧ others c = [d] := by
    fin_cases c
    · exact ⟨1, by decide, by decide⟩
    · exact ⟨0, by decide, by decide⟩
  obtain ⟨_, hc⟩ := h.child_eq c
  obtain ⟨_, hd⟩ := h.child_eq d
  rw [hkeys] at hc
  obtain ⟨x, xs, s', _, hplay, hc', hd'⟩ := play_asking hcd hothers hc hd
  have hor (c' : Fin 2) : c' = c ∨ c' = d := by omega
  refine ⟨x, xs, s', hplay, fun c' => ?_, fun c' key hkey => ?_, d, by simp [hd']⟩
  · rcases hor c' with rfl | rfl
    · simp [hc', Child.queued]
    · simp [hd', Child.queued]
  · rcases hor c' with rfl | rfl
    · exact h.keys c' key (by simpa [hkeys, hc'] using .inr (by simpa [hc'] using hkey))
    · rw [hd'] at hkey
      rcases List.mem_append.1 hkey with hold | hnew
      · exact h.keys c' key hold
      · simpa using hnew

/-- **A key that no child has is asked for without end.**  Two children answer a client's get with
`NotFound`.  Each of them needs the key now, and from then on they ask each other for it and answer
with `NotFound`. -/
theorem not_ends_of_missing : ∃ s : State 2, Runs s ∧
    ¬ Ends next (fun _ x => x.internal = true) s ∧ ¬ Ends next (fun _ x => x.missing = true) s := by
  obtain ⟨s, hruns, hval⟩ : ∃ s : State 2, Runs s ∧ decide ((∀ c, (s.child c).queued = []) ∧
      ∀ c, (s.child c).neededkeys = [[1]]) = true :=
    Reach.exists_of_play [.client (.get [1]), .run 0, .run 0, .run 0, .drain 0, .drain 1,
      .answer 0 0 (.bad (.notFoundError "no block")), .run 1,
      .answer 1 0 (.bad (.notFoundError "no block")), .run 2, .run 2, .run 2] (p := fun _ _ => true)
      (fun _ _ _ => trivial) (by decide +kernel)
  obtain ⟨hidle, hkeys⟩ := of_decide_eq_true hval
  have hask : Asking s := ⟨hidle, fun c key hkey => by simpa [hkeys c] using hkey, 0, by simp [hkeys]⟩
  have hmiss : ¬ Ends next (fun _ x => x.missing = true) s :=
    not_ends_of_play (fun _ _ h => h) (fun _ h => h.play) hask
  refine ⟨s, hruns, fun hends => hmiss (hends.mono fun _ x hx => ?_), hmiss⟩
  cases x with
  | client kind => simp [Label.missing] at hx
  | _ => rfl

end VBS

end Utopfs
