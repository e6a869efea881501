/-
**The block store over several children.**

`modules/VBlockStore` puts one block store in front of several others.  A request is enqueued on every
child; each child drains its queues and answers when it likes; and the answers to one request meet in
the request object, which counts them down and tells the client.  The first success of a get cancels
what is still queued for its key on the other children.  A child that misses a block remembers the
key, and when it has nothing better to do asks the others for it: a get of its own, and on success a
put to the needy child.

The completion routines update the request under its mutex and do everything else without it: the
upcall to the client, the cancellations (which call the completion routines of the cancelled requests
in the same thread), the put for the needy children and the removal of the request.  Any other thread
may come in between.  A routine is therefore a section under the mutex and a list of actions still to
be done, and the state has the threads that are in the middle of such a list.

Main definitions:

* `VBS.Kind`, `VBS.Answer`, `VBS.Request`, `VBS.Act` — requests, the answers to them and the actions
  of the completion routines;
* `VBS.bgComplete`, `VBS.bgError`, `VBS.complete`, `VBS.error` and the others — the completion
  routines;
* `VBS.Child`, `VBS.Child.pick`, `VBS.State` — the queues of a child and the state of the store;
* `VBS.exec`, `VBS.Label`, `VBS.next` — one action of a thread, and one step of the store;
* `VBS.Runs`, `VBS.RunsWith` — the states that runs reach.

The bytes of the blocks are carried along with the requests and answers; what the children make of
them is not modelled: a child may give any answer to any request.
-/

import Mathlib.Data.Finset.Basic
import Mathlib.Data.List.FinRange
import Mathlib.Logic.Function.Basic
import Utopfs.Except
import Utopfs.HeadNodeGraph
import Utopfs.Interleave

set_option relaxedAutoImplicit false
set_option autoImplicit false

namespace Utopfs

namespace VBS

/-- A sequence of bytes. -/
abbrev OctetSeq := List UInt8

/-! ### Requests -/

/-- What a request asks of a child. -/
inductive Kind
  | get (key : OctetSeq)
  | put (key blk : OctetSeq)
  | refreshStart (rid : ℕ)
  | refreshBlock (rid : ℕ) (key : OctetSeq)
  | refreshFinish (rid : ℕ)
  | headInsert (she : Head.HeadEdge)
  | headFollow (hn : Head.HeadNode)
  deriving DecidableEq

/-- What a child answers, and what a client is told: success, for a get with the block, or failure.
A missing block to be refreshed is a failure. -/
inductive Answer
  | good (blk : OctetSeq)
  | bad (exp : Exn)

/-- `i_exp.type() == Exception::T_NOTFOUND`. -/
def isNotFound : Exn → Bool
  | .notFoundError _ => true
  | _ => false

/-- A request object.  `issued` is the count it was made with and `targets` are the children that it
is enqueued on; the code does not keep these two. -/
structure Request (n : ℕ) where
  kind : Kind
  succeeded : Bool
  outstanding : ℤ
  cmpl : Bool
  needy : List (Fin n)
  issued : ℤ
  targets : List (Fin n)

/-- What a thread has still to do outside the mutex of the request. -/
inductive Act (n : ℕ)
  /-- `insert_req`, before the loop that enqueues the request on the children `cs` -/
  | insert (r : ℕ) (cs : List (Fin n))
  /-- `enqueue_get`, `enqueue_put`, `enqueue_refresh`, `enqueue_headnode` -/
  | enqueue (r : ℕ) (c : Fin n)
  /-- The upcall to the client, in the completion routine for the answer of `c`. -/
  | upcall (r : ℕ) (c : Fin n) (a : Answer)
  /-- `cancel_get`, with the children still to be scanned and what has been found on the others. -/
  | cancel (hadit : Fin n) (key : OctetSeq) (left : List (Fin n)) (found : List (Fin n × ℕ))
  /-- `bg_error` with the error `canceled`, for the child `c`. -/
  | canceled (r : ℕ) (c : Fin n)
  /-- The put request for the needy children. -/
  | needyPut (key blk : OctetSeq) (needy : List (Fin n))
  /-- `needed_keys_append` -/
  | neededKey (c : Fin n) (key : OctetSeq)
  /-- `done`, in the completion routine for the answer of `c`. -/
  | done (r : ℕ) (c : Fin n)

variable {n : ℕ}

/-- The section of a success: are we the first successful completion, and are we the last
completion? -/
def Request.complete (q : Request n) : Request n × Bool × Bool :=
  ({ q with succeeded := true, outstanding := q.outstanding - 1 }, !q.succeeded,
    q.outstanding - 1 = 0)

/-- The section of a failure: if we are the last completion and no other child succeeded, we send our
status. -/
def Request.error (q : Request n) : Request n × Bool × Bool :=
  ({ q with outstanding := q.outstanding - 1 }, q.outstanding - 1 = 0 && !q.succeeded,
    q.outstanding - 1 = 0)

/-- The completion routine of a success that only tells the client. -/
def complete (r : ℕ) (c : Fin n) (blk : OctetSeq) (q : Request n) : Request n × List (Act n) :=
  let (q', doComplete, doDone) := q.complete
  (q', (if doComplete && q.cmpl then [.upcall r c (.good blk)] else []) ++
    if doDone then [.done r c] else [])

/-- The completion routine of a failure that only tells the client. -/
def error (r : ℕ) (c : Fin n) (exp : Exn) (q : Request n) : Request n × List (Act n) :=
  let (q', doComplete, doDone) := q.error
  (q', (if doComplete && q.cmpl then [.upcall r c (.bad exp)] else []) ++
    if doDone then [.done r c] else [])

/-- `VBSGetRequest::bg_complete`: the first success cancels the other children's requests for the key
and makes a put request for the needy children. -/
def bgComplete (r : ℕ) (c : Fin n) (key blk : OctetSeq) (q : Request n) :
    Request n × List (Act n) :=
  let needy := if q.succeeded then [] else q.needy
  let (q', doComplete, doDone) := q.complete
  ({ q' with needy := if q.succeeded then q.needy else [] },
    (if doComplete && q.cmpl then
        [.upcall r c (.good blk), .cancel c key (List.finRange n) []] else []) ++
      (if needy = [] then [] else [.needyPut key blk needy]) ++
      if doDone then [.done r c] else [])

/-- `VBSGetRequest::bg_error`: a child that did not find the block needs it. -/
def bgError (r : ℕ) (c : Fin n) (key : OctetSeq) (exp : Exn) (q : Request n) :
    Request n × List (Act n) :=
  let (q', doComplete, doDone) := q.error
  (q', (if doComplete && q.cmpl then [.upcall r c (.bad exp)] else []) ++
    (if isNotFound exp then [.neededKey c key] else []) ++ if doDone then [.done r c] else [])

/-- `VBSPutRequest::bp_complete`, `bp_error`. -/
def bpComplete (r : ℕ) (c : Fin n) (q : Request n) : Request n × List (Act n) := complete r c [] q

@[inherit_doc bpComplete]
def bpError (r : ℕ) (c : Fin n) (exp : Exn) (q : Request n) : Request n × List (Act n) :=
  error r c exp q

/-- `VBSHeadInsertRequest::hei_complete`, `hei_error`. -/
def heiComplete (r : ℕ) (c : Fin n) (q : Request n) : Request n × List (Act n) := complete r c [] q

@[inherit_doc heiComplete]
def heiError (r : ℕ) (c : Fin n) (exp : Exn) (q : Request n) : Request n × List (Act n) :=
  error r c exp q

/-- `VBSRefreshFinishRequest::rf_complete`, `rf_error`. -/
def rfComplete (r : ℕ) (c : Fin n) (q : Request n) : Request n × List (Act n) := complete r c [] q

@[inherit_doc rfComplete]
def rfError (r : ℕ) (c : Fin n) (exp : Exn) (q : Request n) : Request n × List (Act n) :=
  error r c exp q

/-- `VBSRefreshBlockRequest::rb_complete`. -/
def rbComplete (r : ℕ) (c : Fin n) (q : Request n) : Request n × List (Act n) := complete r c [] q

/-- `VBSRefreshBlockRequest::rb_missing`: the child needs the block. -/
def rbMissing (r : ℕ) (c : Fin n) (key : OctetSeq) (exp : Exn) (q : Request n) :
    Request n × List (Act n) :=
  let (q', doComplete, doDone) := q.error
  (q', (if doComplete && q.cmpl then [.upcall r c (.bad exp)] else []) ++
    [.neededKey c key] ++ if doDone then [.done r c] else [])

/-- `VBSRefreshStartRequest::rs_complete`: the client is told when the last child is in. -/
def rsComplete (r : ℕ) (c : Fin n) (q : Request n) : Request n × List (Act n) :=
  ({ q with succeeded := true, outstanding := q.outstanding - 1 },
    if q.outstanding - 1 = 0 then [.upcall r c (.good []), .done r c] else [])

/-- `VBSRefreshStartRequest::rs_error`. -/
def rsError (r : ℕ) (c : Fin n) (exp : Exn) (q : Request n) : Request n × List (Act n) :=
  error r c exp q

/-- `VBSHeadFollowRequest::het_complete`, `het_error` and `complete`: the client is told when the last
child is in, and of a success if there was one. -/
def het (r : ℕ) (c : Fin n) (succeeded : Bool) (q : Request n) : Request n × List (Act n) :=
  ({ q with succeeded := q.succeeded || succeeded, outstanding := q.outstanding - 1 },
    if q.outstanding - 1 = 0 then
      [.upcall r c (if q.succeeded || succeeded then .good []
        else .bad (.notFoundError "no starting seed found")), .done r c]
    else [])

/-- The completion routine for an answer. -/
def respond (r : ℕ) (c : Fin n) (q : Request n) (a : Answer) : Request n × List (Act n) :=
  match q.kind, a with
  | .get key, .good blk => bgComplete r c key blk q
  | .get key, .bad exp => bgError r c key exp q
  | .put _ _, .good _ => bpComplete r c q
  | .put _ _, .bad exp => bpError r c exp q
  | .refreshStart _, .good _ => rsComplete r c q
  | .refreshStart _, .bad exp => rsError r c exp q
  | .refreshBlock _ _, .good _ => rbComplete r c q
  | .refreshBlock _ key, .bad exp => rbMissing r c key exp q
  | .refreshFinish _, .good _ => rfComplete r c q
  | .refreshFinish _, .bad exp => rfError r c exp q
  | .headInsert _, .good _ => heiComplete r c q
  | .headInsert _, .bad exp => heiError r c exp q
  | .headFollow _, .good _ => het r c true q
  | .headFollow _, .bad _ => het r c false q

/-! ### Children -/

/-- The queues of a child, and the requests that it has been given and has not answered. -/
structure Child where
  refreqs : List ℕ
  shereqs : List ℕ
  getreqs : List ℕ
  putreqs : List ℕ
  neededkeys : List OctetSeq
  inflight : List ℕ

/-- What a child does next. -/
inductive Work
  | request (r : ℕ)
  | needed (key : OctetSeq)

/-- The section of `initiate_requests` that takes the next item from the queues. -/
def Child.pick (ch : Child) : Option (Work × Child) :=
  match ch.refreqs with
  | r :: rs => some (.request r, { ch with refreqs := rs })
  | [] =>
  match ch.shereqs with
  | r :: rs => some (.request r, { ch with shereqs := rs })
  | [] =>
  match ch.getreqs with
  | r :: rs => some (.request r, { ch with getreqs := rs })
  | [] =>
  match ch.putreqs with
  | r :: rs => some (.request r, { ch with putreqs := rs })
  | [] =>
  match ch.neededkeys with
  | k :: ks => some (.needed k, { ch with neededkeys := ks })
  | [] => none

/-- Appending a request to the queue of its kind. -/
def Child.enqueue (ch : Child) (kind : Kind) (r : ℕ) : Child :=
  match kind with
  | .get _ => { ch with getreqs := ch.getreqs ++ [r] }
  | .put _ _ => { ch with putreqs := ch.putreqs ++ [r] }
  | .refreshStart _ => { ch with refreqs := ch.refreqs ++ [r] }
  | .refreshBlock _ _ => { ch with refreqs := ch.refreqs ++ [r] }
  | .refreshFinish _ => { ch with refreqs := ch.refreqs ++ [r] }
  | .headInsert _ => { ch with shereqs := ch.shereqs ++ [r] }
  | .headFollow _ => { ch with shereqs := ch.shereqs ++ [r] }

/-! ### The store -/

/-- What has happened, for the statements about whole runs. -/
inductive Event (n : ℕ)
  | enqueued (r : ℕ) (c : Fin n)
  /-- The child itself answered. -/
  | answered (r : ℕ) (c : Fin n) (a : Answer)
  /-- `bg_error` was called for the child by a cancellation. -/
  | canceled (r : ℕ) (c : Fin n)
  | upcall (r : ℕ) (c : Fin n) (a : Answer)
  | removed (r : ℕ) (c : Fin n)

/-- The state of the store: the request objects, `m_requests`, the children, the threads in progress
and the history, oldest first. -/
structure State (n : ℕ) where
  reqs : ℕ → Request n
  nreq : ℕ
  requests : Finset ℕ
  child : Fin n → Child
  threads : List (List (Act n))
  log : List (Event n)

/-- A store with empty queues. -/
def State.init (n : ℕ) : State n where
  reqs := fun _ => ⟨.get [], false, 0, false, [], 0, []⟩
  nreq := 0
  requests := ∅
  child := fun _ => ⟨[], [], [], [], [], []⟩
  threads := []
  log := []

/-- A new request object. -/
def State.alloc (s : State n) (q : Request n) : State n :=
  { s with reqs := Function.update s.reqs s.nreq q, nreq := s.nreq + 1 }

/-- Overwriting a request object. -/
def State.setReq (s : State n) (r : ℕ) (q : Request n) : State n :=
  { s with reqs := Function.update s.reqs r q }

/-- Overwriting a child. -/
def State.setChild (s : State n) (c : Fin n) (ch : Child) : State n :=
  { s with child := Function.update s.child c ch }

/-- Noting an event. -/
def State.note (s : State n) (e : Event n) : State n := { s with log := s.log ++ [e] }

/-- Starting a thread. -/
def State.spawn (s : State n) (k : List (Act n)) : State n := { s with threads := s.threads ++ [k] }

/-- The queued get for the key that `VBSChild::cancel_get` finds. -/
def State.scan (s : State n) (c : Fin n) (key : OctetSeq) : Option ℕ :=
  (s.child c).getreqs.find? fun r => (s.reqs r).kind = .get key

/-- One action of a thread that has `k` to do afterwards.  The exception of `remove_req` ends the
thread. -/
def exec (s : State n) : Act n → List (Act n) → State n × List (Act n)
  | .insert r cs, k => ({ s with requests := insert r s.requests }, cs.map (.enqueue r) ++ k)
  | .enqueue r c, k =>
      ((s.setChild c ((s.child c).enqueue (s.reqs r).kind r)).note (.enqueued r c), k)
  | .upcall r c a, k => (s.note (.upcall r c a), k)
  | .cancel _ _ [] found, k => (s, (found.map fun x => .canceled x.2 x.1) ++ k)
  | .cancel hadit key (c :: left) found, k =>
      -- Skip the kid that had it.
      if c = hadit then (s, .cancel hadit key left found :: k)
      else
        match s.scan c key with
        | none => (s, .cancel hadit key left found :: k)
        | some r =>
            (s.setChild c { s.child c with getreqs := (s.child c).getreqs.erase r },
              .cancel hadit key left (found ++ [(c, r)]) :: k)
  | .canceled r c, k =>
      let (q, k') := respond r c (s.reqs r) (.bad (.internalError "canceled"))
      ((s.setReq r q).note (.canceled r c), k' ++ k)
  | .needyPut key blk needy, k =>
      (s.alloc ⟨.put key blk, false, needy.length, false, [], needy.length, needy⟩,
        .insert s.nreq needy :: k)
  | .neededKey c key, k =>
      (s.setChild c { s.child c with neededkeys := (s.child c).neededkeys ++ [key] }, k)
  | .done r c, k =>
      if r ∈ s.requests then ({ s with requests := s.requests.erase r }.note (.removed r c), k)
      else (s, [])

/-- A request of a client, for all children. -/
def State.issue (s : State n) (kind : Kind) : State n :=
  (s.alloc ⟨kind, false, n, true, [], n, List.finRange n⟩).spawn [.insert s.nreq (List.finRange n)]

/-- The children that may have the block that `c` needs. -/
def others (c : Fin n) : List (Fin n) := (List.finRange n).filter fun c' => c' ≠ c

/-- The get for a needed key, made with a count of 1, and `enqueue_needy_get`. -/
def State.needyGet (s : State n) (c : Fin n) (key : OctetSeq) : State n :=
  if others c = [] then s
  else
    (s.alloc ⟨.get key, false, 1, false, [c], 1, others c⟩).spawn [.insert s.nreq (others c)]

/-- The steps of the store. -/
inductive Label (n : ℕ)
  /-- A client makes a request. -/
  | client (kind : Kind)
  /-- The loop of a child takes the next item from the queues. -/
  | drain (c : Fin n)
  /-- A child answers a request. -/
  | answer (c : Fin n) (r : ℕ) (a : Answer)
  /-- A thread runs its next action. -/
  | run (i : ℕ)

/-- One step. -/
def next (s : State n) : Label n → Option (State n)
  | .client kind => some (s.issue kind)
  | .drain c =>
      match (s.child c).pick with
      | none => none
      | some (.request r, ch) => some (s.setChild c { ch with inflight := ch.inflight ++ [r] })
      | some (.needed key, ch) =>
          -- An empty key ends the loop.
          if key = [] then some (s.setChild c ch) else some ((s.setChild c ch).needyGet c key)
  | .answer c r a =>
      if r ∈ (s.child c).inflight then
        let (q, k) := respond r c (s.reqs r) a
        some ((((s.setChild c { s.child c with inflight := (s.child c).inflight.erase r }).setReq r
          q).note (.answered r c a)).spawn k)
      else none
  | .run i =>
      match s.threads[i]? with
      | some (a :: k) =>
          let (s', k') := exec s a k
          some { s' with threads := s.threads.set i k' }
      | _ => none

/-! ### What a step can be -/

theorem next_drain {s s' : State n} {c : Fin n} (h : next s (.drain c) = some s') :
    (∃ r ch, (s.child c).pick = some (.request r, ch) ∧
      s' = s.setChild c { ch with inflight := ch.inflight ++ [r] }) ∨
    ∃ key ch, (s.child c).pick = some (.needed key, ch) ∧
      s' = if key = [] then s.setChild c ch else (s.setChild c ch).needyGet c key := by
  simp only [next] at h
  cases hp : (s.child c).pick with
  | none => simp [hp] at h
  | some x =>
      obtain ⟨w, ch⟩ := x
      cases w with
      | request r => exact .inl ⟨r, ch, rfl, by simpa [hp] using h.symm⟩
      | needed key =>
          refine .inr ⟨key, ch, rfl, ?_⟩
          rw [hp] at h
          by_cases hk : key = []
          · simpa [hk] using h.symm
          · simpa [hk] using h.symm

theorem next_answer {s s' : State n} {c : Fin n} {r : ℕ} {a : Answer}
    (h : next s (.answer c r a) = some s') : r ∈ (s.child c).inflight ∧
      s' = (((s.setChild c { s.child c with inflight := (s.child c).inflight.erase r }).setReq r
        (respond r c (s.reqs r) a).1).note (.answered r c a)).spawn (respond r c (s.reqs r) a).2 := by
  simp only [next] at h
  split at h
  · exact ⟨by assumption, by simpa using h.symm⟩
  · simp at h

theorem next_run {s s' : State n} {i : ℕ} (h : next s (.run i) = some s') :
    ∃ a k, s.threads[i]? = some (a :: k) ∧
      s' = { (exec s a k).1 with threads := s.threads.set i (exec s a k).2 } := by
  simp only [next] at h
  split at h
  · exact ⟨_, _, by assumption, by simpa using h.symm⟩
  · simp at h

/-- A cancellation either goes on to the next child or takes a queued get from this one. -/
theorem exec_cancel_cons (s : State n) (hadit : Fin n) (key : OctetSeq) (c : Fin n)
    (left : List (Fin n)) (found : List (Fin n × ℕ)) (k : List (Act n)) :
    exec s (.cancel hadit key (c :: left) found) k = (s, .cancel hadit key left found :: k) ∨
    ∃ r, c ≠ hadit ∧ s.scan c key = some r ∧ exec s (.cancel hadit key (c :: left) found) k =
      (s.setChild c { s.child c with getreqs := (s.child c).getreqs.erase r },
        .cancel hadit key left (found ++ [(c, r)]) :: k) := by
  by_cases hc : c = hadit
  · exact .inl (by simp [exec, hc])
  · cases hscan : s.scan c key with
    | none => exact .inl (by simp [exec, hc, hscan])
    | some r => exact .inr ⟨r, hc, rfl, by simp [exec, hc, hscan]⟩

/-- Where the actions come from that a step adds to the threads. -/
inductive Born (s : State n) (x : Label n) : Act n → Prop
  | insert (r : ℕ) (cs : List (Fin n)) : Born s x (.insert r cs)
  | enqueue (r : ℕ) (c : Fin n) : Born s x (.enqueue r c)
  | respond (r : ℕ) (c : Fin n) (a : Answer) {b : Act n} (hb : b ∈ (respond r c (s.reqs r) a).2) :
      Born s x b
  | skipped {i : ℕ} {hadit : Fin n} {key : OctetSeq} {c : Fin n} {left : List (Fin n)}
      {found : List (Fin n × ℕ)} {k : List (Act n)} (hx : x = .run i)
      (hi : s.threads[i]? = some (.cancel hadit key (c :: left) found :: k)) :
      Born s x (.cancel hadit key left found)
  | found {i : ℕ} {hadit : Fin n} {key : OctetSeq} {c : Fin n} {left : List (Fin n)}
      {found : List (Fin n × ℕ)} {k : List (Act n)} {r : ℕ} (hx : x = .run i)
      (hi : s.threads[i]? = some (.cancel hadit key (c :: left) found :: k)) (hc : c ≠ hadit)
      (hscan : s.scan c key = some r) : Born s x (.cancel hadit key left (found ++ [(c, r)]))
  | canceled {i : ℕ} {hadit : Fin n} {key : OctetSeq} {found : List (Fin n × ℕ)} {k : List (Act n)}
      {r : ℕ} {c : Fin n} (hx : x = .run i)
      (hi : s.threads[i]? = some (.cancel hadit key [] found :: k)) (hmem : (c, r) ∈ found) :
      Born s x (.canceled r c)

theorem born_of_exec {s : State n} {i : ℕ} {b : Act n} {k : List (Act n)}
    (hi : s.threads[i]? = some (b :: k)) {b' : Act n} (h : b' ∈ (exec s b k).2) :
    b' ∈ k ∨ Born s (.run i) b' := by
  cases b with
  | insert r cs =>
      rcases List.mem_append.1 h with h | h
      · obtain ⟨c, -, rfl⟩ := List.mem_map.1 h
        exact .inr (.enqueue r c)
      · exact .inl h
  | enqueue r c => exact .inl h
  | upcall r c a => exact .inl h
  | cancel hadit key left found =>
      cases left with
      | nil =>
          rcases List.mem_append.1 h with h | h
          · obtain ⟨x, hx, rfl⟩ := List.mem_map.1 h
            exact .inr (.canceled rfl hi hx)
          · exact .inl h
      | cons c left =>
          rcases exec_cancel_cons s hadit key c left found k with hexec | ⟨r, hc, hscan, hexec⟩
          · rw [hexec] at h
            rcases List.mem_cons.1 h with rfl | h
            · exact .inr (.skipped rfl hi)
            · exact .inl h
          · rw [hexec] at h
            rcases List.mem_cons.1 h with rfl | h
            · exact .inr (.found rfl hi hc hscan)
            · exact .inl h
  | canceled r c =>
      rcases List.mem_append.1 h with h | h
      · exact .inr (.respond r c _ h)
      · exact .inl h
  | needyPut key blk needy =>
      rcases List.mem_cons.1 h with rfl | h
      · exact .inr (.insert _ _)
      · exact .inl h
  | neededKey c key => exact .inl h
  | done r c =>
      by_cases hmem : r ∈ s.requests
      · exact .inl (by simpa [exec, hmem] using h)
      · simp [exec, hmem] at h

/-- **An action of a thread was there before the step, or the step has added it.** -/
theorem born_of_next {s s' : State n} {x : Label n} (h : next s x = some s') {k' : List (Act n)}
    (hk' : k' ∈ s'.threads) {b : Act n} (hb : b ∈ k') : (∃ k ∈ s.threads, b ∈ k) ∨ Born s x b := by
  -- a thread that has just been started
  have hspawn {k : List (Act n)} (hmem : k' ∈ s.threads ++ [k]) (hk : ∀ b ∈ k, Born s x b) :
      (∃ k ∈ s.threads, b ∈ k) ∨ Born s x b := by
    rcases List.mem_append.1 hmem with hold | hnew
    · exact .inl ⟨k', hold, hb⟩
    · rw [List.mem_singleton.1 hnew] at hb
      exact .inr (hk b hb)
  cases x with
  | client kind =>
      obtain rfl : s.issue kind = s' := by simpa [next] using h
      refine hspawn hk' fun b hb => ?_
      rw [List.mem_singleton.1 hb]
      exact .insert _ _
  | drain c =>
      rcases next_drain h with ⟨r, ch, -, rfl⟩ | ⟨key, ch, -, rfl⟩
      · exact .inl ⟨k', hk', hb⟩
      · split at hk'
        · exact .inl ⟨k', hk', hb⟩
        · unfold State.needyGet at hk'
          split at hk'
          · exact .inl ⟨k', hk', hb⟩
          · refine hspawn hk' fun b hb => ?_
            rw [List.mem_singleton.1 hb]
            exact .insert _ _
  | answer c r a =>
      obtain ⟨-, rfl⟩ := next_answer h
      exact hspawn hk' fun b hb => .respond r c a hb
  | run i =>
      obtain ⟨a, k, hi, rfl⟩ := next_run h
      rcases List.mem_or_eq_of_mem_set hk' with hk | rfl
      · exact .inl ⟨k', hk, hb⟩
      · rcases born_of_exec hi hb with hk | hborn
        · exact .inl ⟨a :: k, List.mem_of_getElem? hi, List.mem_cons_of_mem a hk⟩
        · exact .inr hborn

/-- The states of a store with `n` children that runs reach whose steps all meet a condition. -/
abbrev RunsWith (P : State n → Label n → Prop) : State n → Prop :=
  Interleave.Reach next P (State.init n)

/-- The states that runs reach. -/
abbrev Runs : State n → Prop := RunsWith fun _ _ => True

end VBS

end Utopfs
