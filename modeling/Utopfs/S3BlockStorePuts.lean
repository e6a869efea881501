/-
**Puts in flight to the block store in S3.**

`bs_block_put_async` holds the mutex of the store only in pieces: it looks for the key, computes what
is available, runs the purge loop (which releases the mutex around each deletion), and hands the block
to S3.  The answer comes later; `S3AsyncPutHandler.cpp` then charges the block to the store, or sends
it again, or gives up.  Any number of puts can be in progress, and each piece is one atomic step.

Space is checked when a put starts and charged when it completes.  Puts that overlap do not see each
other's bytes, and two puts of one key are both charged.  While one purge waits for S3, another still
counts the bytes that are being deleted, and can purge the `MARK`.

Main definitions:

* `S3BS.Phase`, `S3BS.Put`, `S3BS.Sys`, `S3BS.next` — the puts in progress and their steps;
* `S3BS.AccountsRight` — the counter is the bytes of the blocks in front of the `MARK`, and the bucket
  does not hold more than the size of the store;
* `S3BS.Careful` — the condition on the state before a step;
* `S3BS.Places`, `S3BS.Sums` — the invariant: where the blocks are, and what the counters add up to.

Main results:

* `S3BS.next_balanced` — one careful step keeps the invariant;
* `S3BS.Settled.of_careful` — a run whose puts are all done can be followed by another;
* `S3BS.accountsRight_of_careful` — the accounts are right in every state reached by careful steps.
-/

import Mathlib
import Utopfs.Interleave
import Utopfs.S3BlockStoreReopen

set_option relaxedAutoImplicit false
set_option autoImplicit false
set_option linter.unusedSectionVars false

namespace Utopfs

namespace S3BS

open Prog

variable {Key : Type} [DecidableEq Key]

/-! ### The steps of a put -/

/-- The answer of S3 to a request. -/
inductive Status
  | ok | retryable | permanent
  deriving DecidableEq

/-- Where a put is: what it does next, or what it waits for. -/
inductive Phase (Key : Type)
  /-- Do we already have this block? -/
  | check
  /-- How much space will be available for this block? -/
  | avail
  /-- At the test of the purge loop. -/
  | purge
  /-- The mutex is released, and the object is to be deleted. -/
  | delete (n : Name Key)
  /-- The object is deleted, and the accounting is to be updated. -/
  | charge (n : Name Key)
  /-- There is room; the request is to be sent. -/
  | initiate
  /-- The request is with S3. -/
  | upload
  /-- S3 has answered, and the handler has been notified. -/
  | answered (status : Status)
  /-- `bp_complete` has been called. -/
  | completed
  /-- `bp_error` has been called. -/
  | failed
  deriving DecidableEq

/-- A put in progress; `retries` is `m_retries`. -/
structure Put (Key : Type) where
  key : Key
  data : List UInt8
  retries : ℕ
  phase : Phase Key
  deriving DecidableEq

/-- The store and the puts. -/
structure Sys (Key : Type) where
  store : S3BlockStore Key
  puts : List (Put Key)

/-- `MAX_RETRIES`. -/
def maxRetries : ℕ := 10

/-- The test of the purge loop, and `purge_uncommitted` up to where it releases the mutex. -/
def purgeTest (blksize : ℕ) (s : S3BlockStore Key) : Phase Key × S3BlockStore Key :=
  if 0 < s.excess blksize then
    match purgePop s with
    | .ok n s' => (.delete n, s')
    | .error _ s' => (.failed, s')
  else (.initiate, s)

/-- One piece of `bs_block_put_async`. -/
def runPut (p : Put Key) (s : S3BlockStore Key) : Option (Phase Key × S3BlockStore Key) :=
  match p.phase with
  | .check => some (if .block p.key ∈ s.entries then .completed else .avail, s)
  | .avail => some (if s.size - s.committed < p.data.length then .failed else .purge, s)
  | .purge => some (purgeTest p.data.length s)
  | .delete n => some (.charge n, s.deleteObject n)
  | .charge n =>
      some (purgeTest p.data.length { s with uncommitted := s.uncommitted - (s.entry n).size })
  | .initiate => some (.upload, s)
  | _ => none

/-- S3 answers at time `now`.  A request that fails stores nothing. -/
def answerPut (now : ℕ) (status : Status) (p : Put Key) (s : S3BlockStore Key) :
    Option (Phase Key × S3BlockStore Key) :=
  match p.phase, status with
  | .upload, .ok => some (.answered .ok, s.putObject (.block p.key) ⟨p.data, now⟩)
  | .upload, st => some (.answered st, s)
  | _, _ => none

/-- `handle_exception` of the put's handler at time `now`.  There is no next state where C++ gives
none. -/
def handlePut (now : ℕ) (p : Put Key) (s : S3BlockStore Key) :
    Option (ℕ × Phase Key × S3BlockStore Key) :=
  match p.phase with
  | .answered .ok =>
      match updatePutStats now p.key p.data.length s with
      | .ok _ s' => some (p.retries, .completed, s')
      | .error _ _ => none
  | .answered .retryable =>
      if 0 < p.retries - 1 then some (p.retries - 1, .upload, s)
      else some (p.retries - 1, .failed, s)
  | .answered .permanent => some (p.retries, .failed, s)
  | _ => none

/-- What happens: a client calls, a put goes on, S3 answers, a handler runs. -/
inductive Label (Key : Type)
  | call (k : Key) (data : List UInt8)
  | run (i : ℕ)
  | answer (i now : ℕ) (status : Status)
  | handle (i now : ℕ)

/-- The steps of the system. -/
def next (sys : Sys Key) : Label Key → Option (Sys Key)
  | .call k data => some { sys with puts := sys.puts ++ [⟨k, data, maxRetries, .check⟩] }
  | .run i => do
      let p ← sys.puts[i]?
      let (phase, s) ← runPut p sys.store
      return ⟨s, sys.puts.set i { p with phase := phase }⟩
  | .answer i now status => do
      let p ← sys.puts[i]?
      let (phase, s) ← answerPut now status p sys.store
      return ⟨s, sys.puts.set i { p with phase := phase }⟩
  | .handle i now => do
      let p ← sys.puts[i]?
      let (retries, phase, s) ← handlePut now p sys.store
      return ⟨s, sys.puts.set i { p with retries := retries, phase := phase }⟩

/-! ### The accounts -/

/-- The bytes recorded for the blocks of a list of names. -/
def blockBytes (entry : Name Key → Entry) (l : List (Name Key)) : ℤ :=
  ((l.filter fun n => n.IsBlock).map fun n => (entry n).size).sum

/-- The entries behind the mark. -/
def S3BlockStore.behind (s : S3BlockStore Key) : List (Name Key) :=
  (s.lru.dropWhile fun n => n ≠ .mark).drop 1

/-- The bytes in the bucket. -/
def S3BlockStore.bucketBytes (s : S3BlockStore Key) : ℤ :=
  (s.bucket.map fun x => (x.2.data.length : ℤ)).sum

/-- **The accounts are right**: `m_committed` is the bytes of the block entries in front of the mark,
and the blocks in S3 do not take more than the size of the store. -/
structure AccountsRight (s : S3BlockStore Key) : Prop where
  committed : s.committed = blockBytes s.entry s.front
  bounded : s.bucketBytes ≤ s.size

/-- The key of a put whose request is with S3, or has been answered. -/
def Put.sends (p : Put Key) : Option Key :=
  match p.phase with
  | .upload | .answered _ => some p.key
  | _ => none

/-- The entry that a put is purging. -/
def Put.holds (p : Put Key) : Option (Name Key) :=
  match p.phase with
  | .delete n | .charge n => some n
  | _ => none

/-- The bytes of a put whose request is with S3, or has been answered. -/
def Put.sent (p : Put Key) : ℤ := if p.sends = none then 0 else p.data.length

/-- The bytes of all requests that S3 has, or has answered. -/
def Sys.inFlight (sys : Sys Key) : ℤ := (sys.puts.map Put.sent).sum

/-- The condition on a request: the key is not known and no other request has it, and its bytes fit
beside the two counters and the bytes in flight. -/
def Sys.Room (sys : Sys Key) (p : Put Key) : Prop :=
  .block p.key ∉ sys.store.entries ∧ (∀ q ∈ sys.puts, q.sends ≠ some p.key) ∧
    sys.store.committed + sys.store.uncommitted + sys.inFlight + p.data.length ≤ sys.store.size

/-- The condition on a purge: the entry that the loop takes is a block, and there is a mark in front
of it. -/
def S3BlockStore.TakesBlock (s : S3BlockStore Key) (blksize : ℕ) : Prop :=
  0 < s.excess blksize → ∀ n ∈ s.lru.getLast?, ∀ m ∈ s.mark, (s.entry n).tstamp ≤ m →
    n.IsBlock ∧ .mark ∈ s.lru

instance (s : S3BlockStore Key) (blksize : ℕ) : Decidable (s.TakesBlock blksize) :=
  inferInstanceAs (Decidable (0 < s.excess blksize → ∀ n ∈ s.lru.getLast?, ∀ m ∈ s.mark,
    (s.entry n).tstamp ≤ m → n.IsBlock ∧ .mark ∈ s.lru))

instance (sys : Sys Key) (p : Put Key) : Decidable (sys.Room p) :=
  inferInstanceAs (Decidable (_ ∧ _ ∧ _))

/-- The condition on a piece of a put. -/
def Sys.CarefulPut (sys : Sys Key) (p : Put Key) : Prop :=
  match p.phase with
  | .initiate => sys.Room p
  | .purge => sys.store.TakesBlock p.data.length
  | .charge n =>
      { sys.store with uncommitted := sys.store.uncommitted - (sys.store.entry n).size }.TakesBlock
        p.data.length
  | _ => True

/-- The condition on a step. -/
def Careful (sys : Sys Key) : Label Key → Prop
  | .run i => ∀ p ∈ sys.puts[i]?, sys.CarefulPut p
  | _ => True

instance (sys : Sys Key) : DecidablePred sys.CarefulPut
  | ⟨_, _, _, .initiate⟩ => inferInstanceAs (Decidable (sys.Room _))
  | ⟨_, _, _, .purge⟩ => inferInstanceAs (Decidable (S3BlockStore.TakesBlock _ _))
  | ⟨_, _, _, .charge _⟩ => inferInstanceAs (Decidable (S3BlockStore.TakesBlock _ _))
  | ⟨_, _, _, .check⟩ | ⟨_, _, _, .avail⟩ | ⟨_, _, _, .delete _⟩ | ⟨_, _, _, .upload⟩
  | ⟨_, _, _, .answered _⟩ | ⟨_, _, _, .completed⟩ | ⟨_, _, _, .failed⟩ => isTrue trivial

instance (sys : Sys Key) (x : Label Key) : Decidable (Careful sys x) :=
  match x with
  | .run i => inferInstanceAs (Decidable (∀ p ∈ sys.puts[i]?, sys.CarefulPut p))
  | .call _ _ => isTrue trivial
  | .answer _ _ _ => isTrue trivial
  | .handle _ _ => isTrue trivial

/-! ### The invariant -/

/-- A name has an object of the recorded size. -/
def S3BlockStore.HasObject (s : S3BlockStore Key) (n : Name Key) : Prop :=
  ∃ o, (n, o) ∈ s.bucket ∧ (s.entry n).size = o.data.length

/-- Where the blocks are.  What is in the list has its object; what is being purged is known and not
in the list, and is purged by one put only; what is being sent is not known, and is sent by one put
only, and once it is stored it has its object. -/
structure Places (s : S3BlockStore Key) (puts : List (Put Key)) : Prop where
  nodup : s.lru.Nodup
  sub : ∀ n ∈ s.lru, n ∈ s.entries
  sizes : ∀ n ∈ s.lru, n.IsBlock → s.HasObject n
  names : (s.bucket.map Prod.fst).Nodup
  held : ∀ (i : ℕ) (p : Put Key) (n : Name Key), puts[i]? = some p → p.holds = some n →
    n ∈ s.entries ∧ n ∉ s.lru ∧ 0 ≤ (s.entry n).size
  deletes : ∀ (i : ℕ) (p : Put Key) (n : Name Key), puts[i]? = some p → p.phase = .delete n →
    s.HasObject n
  heldOnce : Interleave.Once Put.holds puts
  sent : ∀ (i : ℕ) (p : Put Key) (k : Key), puts[i]? = some p → p.sends = some k →
    .block k ∉ s.entries
  sentOnce : Interleave.Once Put.sends puts
  stored : ∀ (i : ℕ) (p : Put Key), puts[i]? = some p → p.phase = .answered .ok →
    ∃ o, (.block p.key, o) ∈ s.bucket ∧ o.data.length = p.data.length

/-- The bytes that a put is purging. -/
def Put.purging (entry : Name Key → Entry) (p : Put Key) : ℤ :=
  match p.holds with
  | some n => (entry n).size
  | none => 0

/-- The bytes that a put is about to delete. -/
def Put.deleting (entry : Name Key → Entry) (p : Put Key) : ℤ :=
  match p.phase with
  | .delete n => (entry n).size
  | _ => 0

/-- The bytes of a put that S3 has stored. -/
def Put.stored (p : Put Key) : ℤ :=
  match p.phase with
  | .answered .ok => p.data.length
  | _ => 0

/-- What the counters add up to. -/
structure Sums (s : S3BlockStore Key) (puts : List (Put Key)) : Prop where
  committed : s.committed = blockBytes s.entry s.front
  uncommitted : s.uncommitted = blockBytes s.entry s.behind + (puts.map (Put.purging s.entry)).sum
  room : s.committed + s.uncommitted + (puts.map Put.sent).sum ≤ s.size
  bucket : s.bucketBytes ≤ blockBytes s.entry s.lru + (puts.map (Put.deleting s.entry)).sum +
    (puts.map Put.stored).sum

/-- A store whose accounts are right, with no put in progress: a new one, or one that careful puts have left
when they are all done. -/
structure Settled (s : S3BlockStore Key) : Prop where
  places : Places s []
  sums : Sums s []

theorem blockBytes_append (entry : Name Key → Entry) (l l' : List (Name Key)) :
    blockBytes entry (l ++ l') = blockBytes entry l + blockBytes entry l' := by
  simp [blockBytes]

theorem blockBytes_perm (entry : Name Key → Entry) {l l' : List (Name Key)} (h : l.Perm l') :
    blockBytes entry l = blockBytes entry l' :=
  ((h.filter _).map _).sum_eq

theorem blockBytes_congr {entry entry' : Name Key → Entry} {l : List (Name Key)}
    (h : ∀ n ∈ l, entry' n = entry n) : blockBytes entry' l = blockBytes entry l := by
  refine congrArg List.sum (List.map_congr_left fun n hn => ?_)
  rw [h n (List.mem_of_mem_filter hn)]

/-- The blocks of the list are those on the two sides of the mark. -/
theorem blockBytes_sides (s : S3BlockStore Key) :
    blockBytes s.entry s.lru = blockBytes s.entry s.front + blockBytes s.entry s.behind := by
  by_cases hm : .mark ∈ s.lru
  · rw [blockBytes_perm s.entry (Recency.takeWhile_append_dropWhile_perm hm), ← blockBytes_append]
    simp only [blockBytes, List.filter_cons, Name.IsBlock]
    rfl
  · have h := Recency.no_pivot hm
    rw [S3BlockStore.front, S3BlockStore.behind, h.1, h.2]
    simp [blockBytes]

theorem Put.purging_nonneg {s : S3BlockStore Key} {puts : List (Put Key)} (hp : Places s puts)
    {p : Put Key} (h : p ∈ puts) : p.deleting s.entry ≤ p.purging s.entry := by
  obtain ⟨i, hi⟩ := List.mem_iff_getElem?.1 h
  cases hph : p.phase with
  | charge n =>
      have hn : p.holds = some n := by simp [Put.holds, hph]
      simpa [Put.deleting, Put.purging, hph, hn] using (hp.held i p n hi hn).2.2
  | _ => simp [Put.deleting, Put.purging, Put.holds, hph]

theorem Put.stored_le_sent (p : Put Key) : p.stored ≤ p.sent := by
  unfold Put.stored
  split
  case h_1 hph => simp [Put.sent, Put.sends, hph]
  case h_2 =>
    unfold Put.sent
    split
    · exact le_refl _
    · positivity

/-- **The invariant says that the accounts are right.** -/
theorem Sums.accountsRight {s : S3BlockStore Key} {puts : List (Put Key)} (hs : Sums s puts)
    (hp : Places s puts) : AccountsRight s := by
  refine ⟨hs.committed, ?_⟩
  have h₁ : (puts.map (Put.deleting s.entry)).sum ≤ (puts.map (Put.purging s.entry)).sum :=
    List.sum_le_sum fun p hp' => Put.purging_nonneg hp hp'
  have h₂ : (puts.map Put.stored).sum ≤ (puts.map Put.sent).sum :=
    List.sum_le_sum fun p _ => p.stored_le_sent
  have h₃ := hs.bucket
  have h₄ := hs.room
  rw [blockBytes_sides, ← hs.committed] at h₃
  have h₅ := hs.uncommitted
  omega

/-! ### Where the blocks are, step by step -/

/-- The places do not depend on the counters. -/
theorem Places.congr {s s' : S3BlockStore Key} {puts : List (Put Key)} (hp : Places s puts)
    (hentry : s'.entry = s.entry) (hentries : s'.entries = s.entries) (hlru : s'.lru = s.lru)
    (hbucket : s'.bucket = s.bucket) : Places s' puts := by
  have hobj : ∀ n, s.HasObject n → s'.HasObject n := by
    rintro n ⟨o, ho, hz⟩
    exact ⟨o, hbucket ▸ ho, hentry ▸ hz⟩
  refine ⟨hlru ▸ hp.nodup, ?_, ?_, hbucket ▸ hp.names, ?_, ?_, hp.heldOnce, ?_, hp.sentOnce, ?_⟩
  · rw [hlru, hentries]
    exact hp.sub
  · rw [hlru]
    exact fun n hn hb => hobj n (hp.sizes n hn hb)
  · rw [hlru, hentries, hentry]
    exact hp.held
  · exact fun i p n hi hph => hobj n (hp.deletes i p n hi hph)
  · rw [hentries]
    exact hp.sent
  · rw [hbucket]
    exact hp.stored

/-- A put that takes no entry from the list, stores nothing, and sends what nobody else does. -/
theorem Places.move {s : S3BlockStore Key} {puts : List (Put Key)} (hp : Places s puts) {i : ℕ}
    {p' : Put Key} (hholds : p'.holds = none)
    (hsends : ∀ k, p'.sends = some k → .block k ∉ s.entries ∧
      ∀ j q, j ≠ i → puts[j]? = some q → q.sends ≠ some k)
    (hstored : p'.phase ≠ .answered .ok) : Places s (puts.set i p') := by
  refine ⟨hp.nodup, hp.sub, hp.sizes, hp.names, ?_, ?_, hp.heldOnce.set (by simp [hholds]), ?_,
    hp.sentOnce.set fun k hk => (hsends k hk).2, ?_⟩
  · intro j q n hj hq
    rcases Interleave.set_cases hj with ⟨rfl, rfl⟩ | ⟨-, hj⟩
    · simp [hholds] at hq
    · exact hp.held j q n hj hq
  · intro j q n hj hq
    rcases Interleave.set_cases hj with ⟨rfl, rfl⟩ | ⟨-, hj⟩
    · simp [Put.holds, hq] at hholds
    · exact hp.deletes j q n hj hq
  · intro j q k hj hq
    rcases Interleave.set_cases hj with ⟨rfl, rfl⟩ | ⟨-, hj⟩
    · exact (hsends k hq).1
    · exact hp.sent j q k hj hq
  · intro j q hj hq
    rcases Interleave.set_cases hj with ⟨rfl, rfl⟩ | ⟨-, hj⟩
    · exact absurd hq hstored
    · exact hp.stored j q hj hq

/-- A put that neither purges nor sends. -/
theorem Places.idle {s : S3BlockStore Key} {puts : List (Put Key)} (hp : Places s puts) {i : ℕ}
    {p' : Put Key} (hholds : p'.holds = none) (hsends : p'.sends = none) :
    Places s (puts.set i p') := by
  refine hp.move hholds (by simp [hsends]) fun hph => ?_
  simp [Put.sends, hph] at hsends

/-- What a put sends, nobody else sends. -/
theorem Places.sends_self {s : S3BlockStore Key} {puts : List (Put Key)} (hp : Places s puts) {i : ℕ}
    {p : Put Key} (hi : puts[i]? = some p) {k : Key} (hk : p.sends = some k) :
    .block k ∉ s.entries ∧ ∀ j q, j ≠ i → puts[j]? = some q → q.sends ≠ some k :=
  ⟨hp.sent i p k hi hk, fun j q hji hj hq => hji (hp.sentOnce j i q p k hj hi hq hk)⟩

/-- A new put. -/
theorem Places.call {s : S3BlockStore Key} {puts : List (Put Key)} (hp : Places s puts) {p : Put Key}
    (hph : p.phase = .check) : Places s (puts ++ [p]) := by
  have hholds : p.holds = none := by simp [Put.holds, hph]
  have hsends : p.sends = none := by simp [Put.sends, hph]
  refine ⟨hp.nodup, hp.sub, hp.sizes, hp.names, ?_, ?_, hp.heldOnce.concat hholds, ?_,
    hp.sentOnce.concat hsends, ?_⟩
  · intro j q n hj hq
    rcases Interleave.concat_cases hj with hj | rfl
    · exact hp.held j q n hj hq
    · simp [hholds] at hq
  · intro j q n hj hq
    rcases Interleave.concat_cases hj with hj | rfl
    · exact hp.deletes j q n hj hq
    · simp [hph] at hq
  · intro j q k hj hq
    rcases Interleave.concat_cases hj with hj | rfl
    · exact hp.sent j q k hj hq
    · simp [hsends] at hq
  · intro j q hj hq
    rcases Interleave.concat_cases hj with hj | rfl
    · exact hp.stored j q hj hq
    · simp [hph] at hq

/-- A purge takes a block from the end of the list. -/
theorem Places.pop {s : S3BlockStore Key} {puts : List (Put Key)} (hp : Places s puts) {i : ℕ}
    {p' : Put Key} {l : List (Name Key)} {n : Name Key} (hl : s.lru = l ++ [n]) (hb : n.IsBlock)
    (hph : p'.phase = .delete n) : Places { s with lru := l } (puts.set i p') := by
  have hnd := hp.nodup
  rw [hl] at hnd
  obtain ⟨hnl, -, hdisj⟩ := List.nodup_append.1 hnd
  have hmem : ∀ m, m ∈ l → m ∈ s.lru := fun m hm => by simp [hl, hm]
  have hn : n ∈ s.lru := by simp [hl]
  have hout : n ∉ l := fun hin => hdisj n hin n (by simp) rfl
  obtain ⟨o, ho, hz⟩ := hp.sizes n hn hb
  have hholds : p'.holds = some n := by simp [Put.holds, hph]
  have hsends : p'.sends = none := by simp [Put.sends, hph]
  refine ⟨hnl, fun m hm => hp.sub m (hmem m hm), fun m hm hb => hp.sizes m (hmem m hm) hb, hp.names,
    ?_, ?_, hp.heldOnce.set ?_, ?_, hp.sentOnce.set (by simp [hsends]), ?_⟩
  · intro j q m hj hq
    rcases Interleave.set_cases hj with ⟨rfl, rfl⟩ | ⟨-, hj⟩
    · obtain rfl : n = m := by simpa [hholds] using hq
      exact ⟨hp.sub n hn, hout, by rw [hz]; positivity⟩
    · obtain ⟨h₁, h₂, h₃⟩ := hp.held j q m hj hq
      exact ⟨h₁, fun hin => h₂ (hmem m hin), h₃⟩
  · intro j q m hj hq
    rcases Interleave.set_cases hj with ⟨rfl, rfl⟩ | ⟨-, hj⟩
    · obtain rfl : n = m := by simpa [hph] using hq
      exact ⟨o, ho, hz⟩
    · exact hp.deletes j q m hj hq
  · intro m hm j q _ hj hq
    -- What others hold is not in the list.
    obtain rfl : n = m := by simpa [hholds] using hm
    exact (hp.held j q n hj hq).2.1 hn
  · intro j q k hj hq
    rcases Interleave.set_cases hj with ⟨rfl, rfl⟩ | ⟨-, hj⟩
    · simp [hsends] at hq
    · exact hp.sent j q k hj hq
  · intro j q hj hq
    rcases Interleave.set_cases hj with ⟨rfl, rfl⟩ | ⟨-, hj⟩
    · simp [hph] at hq
    · exact hp.stored j q hj hq

/-- The object of another name stays when one is deleted. -/
theorem S3BlockStore.HasObject.delete {s : S3BlockStore Key} {n m : Name Key} (h : s.HasObject m)
    (hne : m ≠ n) : (s.deleteObject n).HasObject m := by
  obtain ⟨o, ho, hz⟩ := h
  exact ⟨o, List.mem_filter.2 ⟨ho, by simpa using hne⟩, hz⟩

/-- A purge deletes the object. -/
theorem Places.delete {s : S3BlockStore Key} {puts : List (Put Key)} (hp : Places s puts) {i : ℕ}
    {p p' : Put Key} (hi : puts[i]? = some p) {n : Name Key} (hph : p.phase = .delete n)
    (hph' : p'.phase = .charge n) : Places (s.deleteObject n) (puts.set i p') := by
  have hholds : p.holds = some n := by simp [Put.holds, hph]
  have hholds' : p'.holds = some n := by simp [Put.holds, hph']
  have hsends : p'.sends = none := by simp [Put.sends, hph']
  obtain ⟨hin, hout, hz⟩ := hp.held i p n hi hholds
  refine ⟨hp.nodup, hp.sub, ?_, hp.names.sublist (List.filter_sublist.map _), ?_, ?_,
    hp.heldOnce.set ?_, ?_, hp.sentOnce.set (by simp [hsends]), ?_⟩
  · exact fun m hm hb => S3BlockStore.HasObject.delete (hp.sizes m hm hb) fun he => hout (he ▸ hm)
  · intro j q m hj hq
    rcases Interleave.set_cases hj with ⟨rfl, rfl⟩ | ⟨-, hj⟩
    · obtain rfl : n = m := by simpa [hholds'] using hq
      exact ⟨hin, hout, hz⟩
    · exact hp.held j q m hj hq
  · intro j q m hj hq
    rcases Interleave.set_cases hj with ⟨rfl, rfl⟩ | ⟨hji, hj⟩
    · simp [hph'] at hq
    · refine S3BlockStore.HasObject.delete (hp.deletes j q m hj hq) fun he => hji ?_
      exact hp.heldOnce j i q p n hj hi (by simp [Put.holds, hq, he]) hholds
  · intro m hm j q hji hj hq
    obtain rfl : n = m := by simpa [hholds'] using hm
    exact hji (hp.heldOnce j i q p n hj hi hq hholds)
  · intro j q k hj hq
    rcases Interleave.set_cases hj with ⟨rfl, rfl⟩ | ⟨-, hj⟩
    · simp [hsends] at hq
    · exact hp.sent j q k hj hq
  · intro j q hj hq
    rcases Interleave.set_cases hj with ⟨rfl, rfl⟩ | ⟨-, hj⟩
    · simp [hph'] at hq
    · obtain ⟨o, ho, hz⟩ := hp.stored j q hj hq
      -- The block that S3 has stored is not known yet, and the purged one is.
      have hne : .block q.key ≠ n := fun he =>
        hp.sent j q q.key hj (by simp [Put.sends, hq]) (he ▸ hin)
      exact ⟨o, List.mem_filter.2 ⟨ho, by simpa using hne⟩, hz⟩

/-- The object of another name stays when one is put. -/
theorem mem_putObject {s : S3BlockStore Key} {n m : Name Key} {o o' : Object}
    (h : (m, o) ∈ s.bucket) (hne : m ≠ n) : (m, o) ∈ (s.putObject n o').bucket :=
  List.mem_cons_of_mem _ (List.mem_filter.2 ⟨h, by simpa using hne⟩)

/-- S3 stores the block. -/
theorem Places.answer {s : S3BlockStore Key} {puts : List (Put Key)} (hp : Places s puts) {i : ℕ}
    {p p' : Put Key} (hi : puts[i]? = some p) (hph : p.phase = .upload)
    (hph' : p'.phase = .answered .ok) (hkey : p'.key = p.key) {o : Object}
    (ho : o.data.length = p'.data.length) :
    Places (s.putObject (.block p.key) o) (puts.set i p') := by
  have hsends : p.sends = some p.key := by simp [Put.sends, hph]
  have hsends' : p'.sends = some p.key := by simp [Put.sends, hph', hkey]
  have hholds' : p'.holds = none := by simp [Put.holds, hph']
  obtain ⟨hnew, hothers⟩ := hp.sends_self hi hsends
  -- A name that is known keeps its object.
  have hobj : ∀ n, n ∈ s.entries → s.HasObject n → (s.putObject (.block p.key) o).HasObject n := by
    rintro n hn ⟨o', ho', hz⟩
    exact ⟨o', mem_putObject ho' fun he => hnew (he ▸ hn), hz⟩
  refine ⟨hp.nodup, hp.sub, fun n hn hb => hobj n (hp.sub n hn) (hp.sizes n hn hb), ?_, ?_, ?_,
    hp.heldOnce.set (by simp [hholds']), ?_, hp.sentOnce.set ?_, ?_⟩
  · have hdrop : (.block p.key) ∉ (dropObject (.block p.key) s.bucket).map Prod.fst := by
      simp [dropObject]
    exact List.nodup_cons.2 ⟨hdrop, hp.names.sublist (List.filter_sublist.map _)⟩
  · intro j q n hj hq
    rcases Interleave.set_cases hj with ⟨rfl, rfl⟩ | ⟨-, hj⟩
    · simp [hholds'] at hq
    · exact hp.held j q n hj hq
  · intro j q n hj hq
    rcases Interleave.set_cases hj with ⟨rfl, rfl⟩ | ⟨-, hj⟩
    · simp [hph'] at hq
    · exact hobj n (hp.held j q n hj (by simp [Put.holds, hq])).1 (hp.deletes j q n hj hq)
  · intro j q k hj hq
    rcases Interleave.set_cases hj with ⟨rfl, rfl⟩ | ⟨-, hj⟩
    · obtain rfl : p.key = k := by simpa [hsends'] using hq
      exact hnew
    · exact hp.sent j q k hj hq
  · intro k hk
    obtain rfl : p.key = k := by simpa [hsends'] using hk
    exact hothers
  · intro j q hj hq
    rcases Interleave.set_cases hj with ⟨rfl, rfl⟩ | ⟨hji, hj⟩
    · exact ⟨o, by simp [S3BlockStore.putObject, hkey], ho⟩
    · obtain ⟨o', ho', hz⟩ := hp.stored j q hj hq
      have hne : (.block q.key : Name Key) ≠ .block p.key := fun he =>
        hothers j q hji hj (by simpa [Put.sends, hq] using he)
      exact ⟨o', mem_putObject ho' hne, hz⟩

/-- The store after `update_put_stats` for a block that it does not know. -/
def S3BlockStore.charged (s : S3BlockStore Key) (now : ℕ) (k : Key) (blksize : ℕ) : S3BlockStore Key :=
  { s.setEntry (.block k) ⟨now, blksize⟩ with
    committed := s.committed + blksize
    entries := .block k :: s.entries
    lru := .block k :: s.lru }

/-- Charging a block leaves the entries that are known alone. -/
theorem charged_entry {s : S3BlockStore Key} {k : Key} (hk : .block k ∉ s.entries) (now blksize : ℕ)
    {n : Name Key} (hn : n ∈ s.entries) : (s.charged now k blksize).entry n = s.entry n :=
  Function.update_of_ne (fun he : n = .block k => hk (he ▸ hn)) _ _

/-- The handler charges the block. -/
theorem Places.stats {s : S3BlockStore Key} {puts : List (Put Key)} (hp : Places s puts) {i : ℕ}
    {p p' : Put Key} (hi : puts[i]? = some p) (hph : p.phase = .answered .ok)
    (hph' : p'.phase = .completed) (now : ℕ) :
    Places (s.charged now p.key p.data.length) (puts.set i p') := by
  have hsends : p.sends = some p.key := by simp [Put.sends, hph]
  have hsends' : p'.sends = none := by simp [Put.sends, hph']
  have hholds' : p'.holds = none := by simp [Put.holds, hph']
  obtain ⟨hnew, hothers⟩ := hp.sends_self hi hsends
  have hout : .block p.key ∉ s.lru := fun hin => hnew (hp.sub _ hin)
  have hentry : ∀ {n : Name Key}, n ∈ s.entries →
      (s.charged now p.key p.data.length).entry n = s.entry n := charged_entry hnew now p.data.length
  have hobj : ∀ n, n ∈ s.entries → s.HasObject n → (s.charged now p.key p.data.length).HasObject n := by
    rintro n hn ⟨o, ho, hz⟩
    exact ⟨o, ho, by rw [hentry hn, hz]⟩
  refine ⟨List.nodup_cons.2 ⟨hout, hp.nodup⟩, ?_, ?_, hp.names, ?_, ?_,
    hp.heldOnce.set (by simp [hholds']), ?_, hp.sentOnce.set (by simp [hsends']), ?_⟩
  · intro n hn
    rcases List.mem_cons.1 hn with rfl | hn
    · exact List.mem_cons_self
    · exact List.mem_cons_of_mem _ (hp.sub n hn)
  · intro n hn hb
    rcases List.mem_cons.1 hn with rfl | hn
    · obtain ⟨o, ho, hz⟩ := hp.stored i p hi hph
      exact ⟨o, ho, by simp [S3BlockStore.charged, S3BlockStore.setEntry, hz]⟩
    · exact hobj n (hp.sub n hn) (hp.sizes n hn hb)
  · intro j q n hj hq
    rcases Interleave.set_cases hj with ⟨rfl, rfl⟩ | ⟨-, hj⟩
    · simp [hholds'] at hq
    · obtain ⟨h₁, h₂, h₃⟩ := hp.held j q n hj hq
      have hne : n ≠ .block p.key := fun he => hnew (he ▸ h₁)
      exact ⟨List.mem_cons_of_mem _ h₁, by simpa [S3BlockStore.charged, hne] using h₂,
        by rwa [hentry h₁]⟩
  · intro j q n hj hq
    rcases Interleave.set_cases hj with ⟨rfl, rfl⟩ | ⟨-, hj⟩
    · simp [hph'] at hq
    · exact hobj n (hp.held j q n hj (by simp [Put.holds, hq])).1 (hp.deletes j q n hj hq)
  · intro j q k hj hq
    rcases Interleave.set_cases hj with ⟨rfl, rfl⟩ | ⟨hji, hj⟩
    · simp [hsends'] at hq
    · have hne : k ≠ p.key := fun he => hothers j q hji hj (he ▸ hq)
      simpa [S3BlockStore.charged, hne] using hp.sent j q k hj hq
  · intro j q hj hq
    rcases Interleave.set_cases hj with ⟨rfl, rfl⟩ | ⟨-, hj⟩
    · simp [hph'] at hq
    · exact hp.stored j q hj hq

/-! ### What the counters add up to, step by step -/

/-- One put moves, and the entry objects stay. -/
theorem Sums.move {s s' : S3BlockStore Key} {puts : List (Put Key)} (hs : Sums s puts) {i : ℕ}
    {p p' : Put Key} (hi : puts[i]? = some p) (hentry : s'.entry = s.entry)
    (hcommitted : s'.committed = blockBytes s.entry s'.front)
    (huncommitted : s'.uncommitted - blockBytes s.entry s'.behind - p'.purging s.entry =
      s.uncommitted - blockBytes s.entry s.behind - p.purging s.entry)
    (hroom : s'.committed + s'.uncommitted + (puts.map Put.sent).sum - p.sent + p'.sent ≤ s'.size)
    (hbucket : s'.bucketBytes - blockBytes s.entry s'.lru - p'.deleting s.entry - p'.stored ≤
      s.bucketBytes - blockBytes s.entry s.lru - p.deleting s.entry - p.stored) :
    Sums s' (puts.set i p') := by
  have h₁ := hs.uncommitted
  have h₂ := hs.bucket
  constructor
  · rw [hentry, hcommitted]
  · rw [hentry, Interleave.sum_set _ hi]
    omega
  · rw [Interleave.sum_set _ hi]
    omega
  · rw [hentry, Interleave.sum_set _ hi, Interleave.sum_set _ hi]
    omega

theorem Put.sent_nonneg (p : Put Key) : 0 ≤ p.sent := by
  unfold Put.sent
  split
  · exact le_refl _
  · positivity

theorem Put.deleting_of_not_holds {p : Put Key} (entry : Name Key → Entry) (h : p.holds = none) :
    p.deleting entry = 0 := by
  unfold Put.deleting
  split
  case h_1 hph => simp [Put.holds, hph] at h
  case h_2 => rfl

/-- The bytes of a put that neither purges nor sends. -/
theorem Put.weights_of_idle {p : Put Key} (entry : Name Key → Entry) (hholds : p.holds = none)
    (hsends : p.sends = none) :
    p.purging entry = 0 ∧ p.deleting entry = 0 ∧ p.sent = 0 ∧ p.stored = 0 := by
  refine ⟨by simp [Put.purging, hholds], Put.deleting_of_not_holds entry hholds,
    by simp [Put.sent, hsends], ?_⟩
  unfold Put.stored
  split
  case h_1 hph => simp [Put.sends, hph] at hsends
  case h_2 => rfl

/-- A put that does not purge, and gives up no block that S3 has stored. -/
theorem Sums.idle {s : S3BlockStore Key} {puts : List (Put Key)} (hs : Sums s puts) {i : ℕ}
    {p p' : Put Key} (hi : puts[i]? = some p) (hholds : p.holds = none) (hok : p.stored = 0)
    (hholds' : p'.holds = none) (hsends' : p'.sends = none) : Sums s (puts.set i p') := by
  obtain ⟨h₁, h₂, h₃, h₄⟩ := Put.weights_of_idle s.entry hholds' hsends'
  have hpurge : p.purging s.entry = 0 := by simp [Put.purging, hholds]
  have hdel := Put.deleting_of_not_holds s.entry hholds
  have hsent := p.sent_nonneg
  have hroom := hs.room
  exact hs.move hi rfl hs.committed (by omega) (by omega) (by omega)

/-- A purge takes a block from behind the mark. -/
theorem Sums.pop {s : S3BlockStore Key} {puts : List (Put Key)} (hs : Sums s puts) {i : ℕ}
    {p p' : Put Key} (hi : puts[i]? = some p) (hph : p.phase = .purge) {l : List (Name Key)}
    {n : Name Key} (hl : s.lru = l ++ [n]) (hb : n.IsBlock) (hm : .mark ∈ l)
    (hph' : p'.phase = .delete n) : Sums { s with lru := l } (puts.set i p') := by
  obtain ⟨h₁, h₂, h₃, h₄⟩ := Put.weights_of_idle (p := p) s.entry (by simp [Put.holds, hph])
    (by simp [Put.sends, hph])
  have hone : blockBytes s.entry [n] = (s.entry n).size := by simp [blockBytes, hb]
  have hfront : s.front = l.takeWhile fun n => n ≠ .mark := by
    rw [S3BlockStore.front, hl, Recency.before_append hm]
  have hbehind : blockBytes s.entry s.behind =
      blockBytes s.entry ((l.dropWhile fun n => n ≠ .mark).drop 1) + (s.entry n).size := by
    rw [S3BlockStore.behind, hl, Recency.behind_append hm, blockBytes_append, hone]
  have hlru : blockBytes s.entry s.lru = blockBytes s.entry l + (s.entry n).size := by
    rw [hl, blockBytes_append, hone]
  have hpurge : p'.purging s.entry = (s.entry n).size := by simp [Put.purging, Put.holds, hph']
  have hdel : p'.deleting s.entry = (s.entry n).size := by simp [Put.deleting, hph']
  have hsent : p'.sent = 0 := by simp [Put.sent, Put.sends, hph']
  have hstored : p'.stored = 0 := by simp [Put.stored, hph']
  have hroom := hs.room
  refine hs.move hi rfl ?_ ?_ ?_ ?_
  · rw [hs.committed, hfront]
    rfl
  · rw [hpurge, h₁, hbehind, S3BlockStore.behind]
    ring
  · simp only [hsent, h₃]
    omega
  · rw [hdel, hstored, h₂, h₄, hlru]
    simp only [S3BlockStore.bucketBytes]
    omega

/-- The bytes that a deletion frees. -/
theorem bucketBytes_delete {s : S3BlockStore Key} (hnames : (s.bucket.map Prod.fst).Nodup)
    {n : Name Key} {o : Object} (ho : (n, o) ∈ s.bucket) :
    (s.deleteObject n).bucketBytes = s.bucketBytes - o.data.length := by
  simp only [S3BlockStore.bucketBytes, S3BlockStore.deleteObject]
  generalize s.bucket = b at hnames ho
  induction b with
  | nil => simp at ho
  | cons x b ih =>
      obtain ⟨hx, hb⟩ := List.nodup_cons.1 hnames
      rcases List.mem_cons.1 ho with rfl | hin
      · -- The rest of the bucket has no object of this name.
        have hrest : dropObject n b = b := List.filter_eq_self.2 fun y hy => by
          simpa using fun he : y.1 = n => hx (List.mem_map.2 ⟨y, hy, he⟩)
        have hdrop : dropObject n ((n, o) :: b) = b := by
          simpa [dropObject] using hrest
        rw [hdrop]
        simp
      · have hne : x.1 ≠ n := fun he => hx (he ▸ List.mem_map.2 ⟨(n, o), hin, rfl⟩)
        have hdrop : dropObject n (x :: b) = x :: dropObject n b := by simp [dropObject, hne]
        rw [hdrop, List.map_cons, List.sum_cons, List.map_cons, List.sum_cons, ih hb hin]
        ring

/-- The bytes that a put adds are at most those of the object. -/
theorem bucketBytes_put (s : S3BlockStore Key) (n : Name Key) (o : Object) :
    (s.putObject n o).bucketBytes ≤ s.bucketBytes + o.data.length := by
  have hsub : (dropObject n s.bucket).Sublist s.bucket := List.filter_sublist
  have hle := (hsub.map fun x => (x.2.data.length : ℤ)).sum_le_sum fun x hx => by
    obtain ⟨y, -, rfl⟩ := List.mem_map.1 hx
    positivity
  simp only [S3BlockStore.bucketBytes, S3BlockStore.putObject, List.map_cons, List.sum_cons]
  omega

/-- A purge deletes the object. -/
theorem Sums.delete {s : S3BlockStore Key} {puts : List (Put Key)} (hs : Sums s puts)
    (hp : Places s puts) {i : ℕ} {p p' : Put Key} (hi : puts[i]? = some p) {n : Name Key}
    (hph : p.phase = .delete n) (hph' : p'.phase = .charge n) :
    Sums (s.deleteObject n) (puts.set i p') := by
  obtain ⟨o, ho, hz⟩ := hp.deletes i p n hi hph
  have hbytes := bucketBytes_delete hp.names ho
  have hpurge : p.purging s.entry = p'.purging s.entry := by
    simp [Put.purging, Put.holds, hph, hph']
  have hdel : p.deleting s.entry = (s.entry n).size := by simp [Put.deleting, hph]
  have hdel' : p'.deleting s.entry = 0 := by simp [Put.deleting, hph']
  have hsent : p.sent = 0 := by simp [Put.sent, Put.sends, hph]
  have hsent' : p'.sent = 0 := by simp [Put.sent, Put.sends, hph']
  have hstored : p.stored = 0 := by simp [Put.stored, hph]
  have hstored' : p'.stored = 0 := by simp [Put.stored, hph']
  have hroom := hs.room
  refine hs.move hi rfl hs.committed ?_ ?_ ?_
  · rw [hpurge]
    rfl
  · simp only [S3BlockStore.deleteObject]
    omega
  · simp only [S3BlockStore.deleteObject] at hbytes ⊢
    omega

/-- A purge charges the bytes. -/
theorem Sums.charge {s : S3BlockStore Key} {puts : List (Put Key)} (hs : Sums s puts)
    (hp : Places s puts) {i : ℕ} {p p' : Put Key} (hi : puts[i]? = some p) {n : Name Key}
    (hph : p.phase = .charge n) (hph' : p'.phase = .purge) :
    Sums { s with uncommitted := s.uncommitted - (s.entry n).size } (puts.set i p') := by
  obtain ⟨h₁, h₂, h₃, h₄⟩ := Put.weights_of_idle (p := p') s.entry (by simp [Put.holds, hph'])
    (by simp [Put.sends, hph'])
  have hpos := (hp.held i p n hi (by simp [Put.holds, hph])).2.2
  have hpurge : p.purging s.entry = (s.entry n).size := by simp [Put.purging, Put.holds, hph]
  have hdel : p.deleting s.entry = 0 := by simp [Put.deleting, hph]
  have hsent : p.sent = 0 := by simp [Put.sent, Put.sends, hph]
  have hstored : p.stored = 0 := by simp [Put.stored, hph]
  have hroom := hs.room
  refine hs.move hi rfl hs.committed ?_ ?_ ?_
  · rw [h₁, hpurge]
    simp only [S3BlockStore.behind]
    ring
  · simp only
    omega
  · simp only [S3BlockStore.bucketBytes]
    omega

/-- A request is sent where there is room. -/
theorem Sums.send {s : S3BlockStore Key} {puts : List (Put Key)} (hs : Sums s puts) {i : ℕ}
    {p p' : Put Key} (hi : puts[i]? = some p) (hph : p.phase = .initiate)
    (hph' : p'.phase = .upload) (hroom : Sys.Room ⟨s, puts⟩ p) (hdata : p'.data = p.data) :
    Sums s (puts.set i p') := by
  obtain ⟨h₁, h₂, h₃, h₄⟩ := Put.weights_of_idle (p := p) s.entry (by simp [Put.holds, hph])
    (by simp [Put.sends, hph])
  have hpurge : p'.purging s.entry = 0 := by simp [Put.purging, Put.holds, hph']
  have hdel : p'.deleting s.entry = 0 := by simp [Put.deleting, hph']
  have hsent : p'.sent = p.data.length := by simp [Put.sent, Put.sends, hph', hdata]
  have hstored : p'.stored = 0 := by simp [Put.stored, hph']
  have hspace := hroom.2.2
  simp only [Sys.inFlight] at hspace
  exact hs.move hi rfl hs.committed (by omega) (by omega) (by omega)

/-- S3 stores the block. -/
theorem Sums.answer {s : S3BlockStore Key} {puts : List (Put Key)} (hs : Sums s puts) {i : ℕ}
    {p p' : Put Key} (hi : puts[i]? = some p) (hph : p.phase = .upload)
    (hph' : p'.phase = .answered .ok) (hdata : p'.data = p.data) {o : Object}
    (ho : o.data.length = p'.data.length) :
    Sums (s.putObject (.block p.key) o) (puts.set i p') := by
  have hbytes := bucketBytes_put s (.block p.key) o
  have hpurge : p.purging s.entry = 0 := by simp [Put.purging, Put.holds, hph]
  have hpurge' : p'.purging s.entry = 0 := by simp [Put.purging, Put.holds, hph']
  have hdel : p.deleting s.entry = 0 := by simp [Put.deleting, hph]
  have hdel' : p'.deleting s.entry = 0 := by simp [Put.deleting, hph']
  have hsent : p.sent = p'.sent := by simp [Put.sent, Put.sends, hph, hph', hdata]
  have hstored : p.stored = 0 := by simp [Put.stored, hph]
  have hstored' : p'.stored = o.data.length := by simp [Put.stored, hph', ho]
  have hroom := hs.room
  refine hs.move hi rfl hs.committed ?_ ?_ ?_
  · rw [hpurge, hpurge']
    rfl
  · simp only [S3BlockStore.putObject]
    omega
  · simp only [S3BlockStore.putObject] at hbytes ⊢
    omega

/-- A request that has been sent is answered with a failure, or sent again. -/
theorem Sums.wait {s : S3BlockStore Key} {puts : List (Put Key)} (hs : Sums s puts) {i : ℕ}
    {p p' : Put Key} (hi : puts[i]? = some p) (hsends : p.sends = p'.sends) (hdata : p'.data = p.data)
    (hholds : p.holds = none) (hholds' : p'.holds = none) (hok : p.stored = 0) (hok' : p'.stored = 0) :
    Sums s (puts.set i p') := by
  have h₁ := Put.deleting_of_not_holds s.entry hholds
  have h₂ := Put.deleting_of_not_holds s.entry hholds'
  have hpurge : p.purging s.entry = 0 := by simp [Put.purging, hholds]
  have hpurge' : p'.purging s.entry = 0 := by simp [Put.purging, hholds']
  have hsent : p.sent = p'.sent := by simp only [Put.sent, hsends, hdata]
  have hroom := hs.room
  exact hs.move hi rfl hs.committed (by omega) (by omega) (by omega)

/-- A new put. -/
theorem Sums.call {s : S3BlockStore Key} {puts : List (Put Key)} (hs : Sums s puts) {p : Put Key}
    (hph : p.phase = .check) : Sums s (puts ++ [p]) := by
  obtain ⟨h₁, h₂, h₃, h₄⟩ := Put.weights_of_idle (p := p) s.entry (by simp [Put.holds, hph])
    (by simp [Put.sends, hph])
  refine ⟨hs.committed, ?_, ?_, ?_⟩
  · simpa [h₁] using hs.uncommitted
  · simpa [h₃] using hs.room
  · simpa [h₂, h₄] using hs.bucket

/-- The handler charges the block. -/
theorem Sums.stats {s : S3BlockStore Key} {puts : List (Put Key)} (hs : Sums s puts)
    (hp : Places s puts) {i : ℕ} {p p' : Put Key} (hi : puts[i]? = some p)
    (hph : p.phase = .answered .ok) (hph' : p'.phase = .completed) (now : ℕ) :
    Sums (s.charged now p.key p.data.length) (puts.set i p') := by
  set s' := s.charged now p.key p.data.length with hs'
  have hnew : .block p.key ∉ s.entries := hp.sent i p p.key hi (by simp [Put.sends, hph])
  have hentry : ∀ {n : Name Key}, n ∈ s.entries → s'.entry n = s.entry n :=
    charged_entry hnew now p.data.length
  have hsub : ∀ l, l ⊆ s.lru → blockBytes s'.entry l = blockBytes s.entry l := fun l hl =>
    blockBytes_congr fun n hn => hentry (hp.sub n (hl hn))
  have hfront : s'.front = .block p.key :: s.front := by
    simp [hs', S3BlockStore.front, S3BlockStore.charged]
  have hbehind : s'.behind = s.behind := by
    simp [hs', S3BlockStore.behind, S3BlockStore.charged]
  have hone : blockBytes s'.entry [.block p.key] = p.data.length := by
    have hb : (Name.block p.key).IsBlock := trivial
    simp [blockBytes, hb, hs', S3BlockStore.charged, S3BlockStore.setEntry]
  -- Nobody purges the new block, so the other weights are as before.
  have hpurging : puts.map (Put.purging s'.entry) = puts.map (Put.purging s.entry) := by
    refine List.map_congr_left fun q hq => ?_
    obtain ⟨j, hj⟩ := List.mem_iff_getElem?.1 hq
    cases hh : q.holds with
    | none => simp [Put.purging, hh]
    | some n => simp [Put.purging, hh, hentry (hp.held j q n hj hh).1]
  have hdeleting : puts.map (Put.deleting s'.entry) = puts.map (Put.deleting s.entry) := by
    refine List.map_congr_left fun q hq => ?_
    obtain ⟨j, hj⟩ := List.mem_iff_getElem?.1 hq
    unfold Put.deleting
    split
    case h_1 n hq' => exact congrArg Entry.size (hentry (hp.held j q n hj (by simp [Put.holds, hq'])).1)
    case h_2 => rfl
  obtain ⟨h₁, h₂, h₃, h₄⟩ := Put.weights_of_idle (p := p') s'.entry (by simp [Put.holds, hph'])
    (by simp [Put.sends, hph'])
  have hpurge : p.purging s'.entry = 0 := by simp [Put.purging, Put.holds, hph]
  have hdel : p.deleting s'.entry = 0 := by simp [Put.deleting, hph]
  have hsent : p.sent = p.data.length := by simp [Put.sent, Put.sends, hph]
  have hstored : p.stored = p.data.length := by simp [Put.stored, hph]
  have hcommitted : s'.committed = s.committed + p.data.length := rfl
  have hlru : blockBytes s'.entry s'.lru = p.data.length + blockBytes s.entry s.lru := by
    have hcons : s'.lru = [.block p.key] ++ s.lru := rfl
    rw [hcons, blockBytes_append, hone, hsub s.lru (List.Subset.refl _)]
  constructor
  · have hcons : s'.front = [.block p.key] ++ s.front := hfront
    rw [hcommitted, hcons, blockBytes_append, hone, hsub s.front (List.takeWhile_subset _), hs.committed]
    ring
  · have hback : s.behind ⊆ s.lru := fun n hn =>
      (List.dropWhile_sublist _).subset ((List.drop_sublist _ _).subset hn)
    rw [hbehind, hsub s.behind hback, Interleave.sum_set _ hi, hpurging, h₁, hpurge]
    have hold := hs.uncommitted
    have hsame : s'.uncommitted = s.uncommitted := rfl
    omega
  · rw [Interleave.sum_set _ hi, h₃, hsent, hcommitted]
    have hold := hs.room
    have hsame : s'.uncommitted = s.uncommitted := rfl
    have hsize : s'.size = s.size := rfl
    omega
  · rw [Interleave.sum_set _ hi, Interleave.sum_set _ hi, hdeleting, h₂, hdel, h₄, hstored, hlru]
    have hold := hs.bucket
    have hsame : s'.bucketBytes = s.bucketBytes := rfl
    omega

/-! ### Careful runs -/

/-- The invariant of the puts in progress. -/
structure Balanced (sys : Sys Key) : Prop where
  places : Places sys.store sys.puts
  sums : Sums sys.store sys.puts

/-- The entry that a purge takes is the last of the list; without one the store is as before. -/
theorem wp_purgePop (s : S3BlockStore Key) :
    wp purgePop
      (fun n s' => ∃ l m, s.lru = l ++ [n] ∧ s.mark = some m ∧ (s.entry n).tstamp ≤ m ∧
        s' = { s with lru := l })
      (fun _ s' => s' = s) s := by
  simp only [purgePop, wp_bind, wp_get]
  rcases List.eq_nil_or_concat s.lru with hnil | ⟨l, n, hl⟩
  · simp only [hnil, List.getLast?_nil]
    rfl
  · have hlast : s.lru.getLast? = some n := by simp [hl]
    have hdrop : s.lru.dropLast = l := by simp [hl]
    cases hm : s.mark with
    | none =>
        simp only [hlast]
        rfl
    | some m =>
        simp only [hlast]
        split
        case isTrue => rfl
        case isFalse hle =>
          simp only [wp_bind, wp_set, wp_pure, hdrop]
          exact ⟨l, m, by simpa using hl, rfl, not_lt.1 hle, rfl⟩

/-- The test of the purge loop, and the purge of one entry. -/
theorem Balanced.purgeTest {s : S3BlockStore Key} {puts : List (Put Key)}
    (h : Balanced ⟨s, puts⟩) {i : ℕ} {p : Put Key} (hi : puts[i]? = some p) (hph : p.phase = .purge)
    (htakes : s.TakesBlock p.data.length) :
    Balanced ⟨(purgeTest p.data.length s).2,
      puts.set i { p with phase := (purgeTest p.data.length s).1 }⟩ := by
  obtain ⟨hp, hs⟩ := h
  have hholds : p.holds = none := by simp [Put.holds, hph]
  have hstored : p.stored = 0 := by simp [Put.stored, hph]
  unfold S3BS.purgeTest
  split
  case isTrue hex =>
    cases hpop : purgePop s with
    | ok n s' =>
        have hspec := wp_ok (wp_purgePop s) hpop
        obtain ⟨l, m, hl, hm, hle, rfl⟩ := hspec
        obtain ⟨hb, hmark⟩ := htakes hex n (by simp [hl]) m hm hle
        have hml : .mark ∈ l := by
          rcases List.mem_append.1 (hl ▸ hmark) with hin | hin
          · exact hin
          · obtain rfl : .mark = n := by simpa using hin
            exact absurd hb (by simp [Name.IsBlock])
        exact ⟨hp.pop hl hb rfl, hs.pop hi hph hl hb hml rfl⟩
    | error e s' =>
        have hspec := wp_error (wp_purgePop s) hpop
        obtain rfl : s' = s := hspec
        exact ⟨hp.idle rfl rfl, hs.idle hi hholds hstored rfl rfl⟩
  case isFalse => exact ⟨hp.idle rfl rfl, hs.idle hi hholds hstored rfl rfl⟩

/-- A piece of `bs_block_put_async` keeps the invariant. -/
theorem Balanced.run {s s' : S3BlockStore Key} {puts : List (Put Key)} (h : Balanced ⟨s, puts⟩)
    {i : ℕ} {p : Put Key} (hi : puts[i]? = some p) (hcare : Careful ⟨s, puts⟩ (.run i))
    {phase : Phase Key} (hrun : runPut p s = some (phase, s')) :
    Balanced ⟨s', puts.set i { p with phase := phase }⟩ := by
  have hput : Sys.CarefulPut ⟨s, puts⟩ p := hcare p hi
  obtain ⟨hp, hs⟩ := h
  unfold runPut at hrun
  split at hrun
  case h_1 hph =>
    obtain ⟨rfl, rfl⟩ := Prod.mk.inj (Option.some.inj hrun)
    have hstored : p.stored = 0 := by simp [Put.stored, hph]
    split <;> exact ⟨hp.idle rfl rfl, hs.idle hi (by simp [Put.holds, hph]) hstored rfl rfl⟩
  case h_2 hph =>
    obtain ⟨rfl, rfl⟩ := Prod.mk.inj (Option.some.inj hrun)
    have hstored : p.stored = 0 := by simp [Put.stored, hph]
    split <;> exact ⟨hp.idle rfl rfl, hs.idle hi (by simp [Put.holds, hph]) hstored rfl rfl⟩
  case h_3 hph =>
    simp only [Sys.CarefulPut, hph] at hput
    have htest := Balanced.purgeTest ⟨hp, hs⟩ hi hph hput
    rw [Option.some.inj hrun] at htest
    exact htest
  case h_4 n hph =>
    obtain ⟨rfl, rfl⟩ := Prod.mk.inj (Option.some.inj hrun)
    exact ⟨hp.delete hi hph rfl, hs.delete hp hi hph rfl⟩
  case h_5 n hph =>
    simp only [Sys.CarefulPut, hph] at hput
    -- Charging is a step of its own, back to the test of the loop.
    have hp₁ : Places { s with uncommitted := s.uncommitted - (s.entry n).size }
        (puts.set i { p with phase := .purge }) :=
      (hp.idle rfl rfl).congr rfl rfl rfl rfl
    have hs₁ : Sums { s with uncommitted := s.uncommitted - (s.entry n).size }
        (puts.set i { p with phase := .purge }) := hs.charge hp hi hph rfl
    have hi₁ : (puts.set i { p with phase := .purge })[i]? = some { p with phase := .purge } := by
      rw [List.getElem?_set_self (List.getElem?_eq_some_iff.1 hi).1]
    have htest := Balanced.purgeTest ⟨hp₁, hs₁⟩ hi₁ rfl hput
    rw [List.set_set] at htest
    rw [Option.some.inj hrun] at htest
    exact htest
  case h_6 hph =>
    obtain ⟨rfl, rfl⟩ := Prod.mk.inj (Option.some.inj hrun)
    simp only [Sys.CarefulPut, hph] at hput
    have hroom := hput
    obtain ⟨hnew, hothers, -⟩ := hput
    refine ⟨hp.move rfl ?_ (by simp), hs.send hi hph rfl hroom rfl⟩
    intro k hk
    obtain rfl : p.key = k := by simpa [Put.sends] using hk
    exact ⟨hnew, fun j q _ hj => hothers q (List.mem_of_getElem? hj)⟩
  case h_7 => simp at hrun

/-- An answer of S3 that stores nothing keeps the invariant. -/
theorem Balanced.refuse {s : S3BlockStore Key} {puts : List (Put Key)} (h : Balanced ⟨s, puts⟩)
    {i : ℕ} {p : Put Key} (hi : puts[i]? = some p) (hph : p.phase = .upload) {status : Status}
    (hst : status ≠ .ok) : Balanced ⟨s, puts.set i { p with phase := .answered status }⟩ := by
  obtain ⟨hp, hs⟩ := h
  have hsends : p.sends = some p.key := by simp [Put.sends, hph]
  have hstored : Put.stored { p with phase := .answered status } = 0 := by
    unfold Put.stored
    split
    case h_1 hq => exact absurd (Phase.answered.inj hq) hst
    case h_2 => rfl
  refine ⟨hp.move rfl ?_ (by simpa using hst), hs.wait hi hsends rfl (by simp [Put.holds, hph]) rfl
    (by simp [Put.stored, hph]) hstored⟩
  intro k hk
  exact hp.sends_self hi (hsends.trans hk)

/-- An answer of S3 keeps the invariant. -/
theorem Balanced.answer {s s' : S3BlockStore Key} {puts : List (Put Key)} (h : Balanced ⟨s, puts⟩)
    {i : ℕ} {p : Put Key} (hi : puts[i]? = some p) {now : ℕ} {status : Status} {phase : Phase Key}
    (hans : answerPut now status p s = some (phase, s')) :
    Balanced ⟨s', puts.set i { p with phase := phase }⟩ := by
  unfold answerPut at hans
  split at hans
  case h_1 hph =>
    obtain ⟨rfl, rfl⟩ := Prod.mk.inj (Option.some.inj hans)
    have hdone : ({ p with phase := .answered .ok } : Put Key).phase = .answered .ok := rfl
    exact ⟨h.places.answer hi hph hdone rfl rfl, h.sums.answer hi hph hdone rfl rfl⟩
  case h_2 hph hst =>
    obtain ⟨rfl, rfl⟩ := Prod.mk.inj (Option.some.inj hans)
    exact h.refuse hi hph fun he => hst he
  case h_3 => simp at hans

/-- The handler of a put keeps the invariant. -/
theorem Balanced.handle {s s' : S3BlockStore Key} {puts : List (Put Key)} (h : Balanced ⟨s, puts⟩)
    {i : ℕ} {p : Put Key} (hi : puts[i]? = some p) {now retries : ℕ} {phase : Phase Key}
    (hhandle : handlePut now p s = some (retries, phase, s')) :
    Balanced ⟨s', puts.set i { p with retries := retries, phase := phase }⟩ := by
  obtain ⟨hp, hs⟩ := h
  unfold handlePut at hhandle
  split at hhandle
  case h_1 hph =>
    have hnew : .block p.key ∉ s.entries := hp.sent i p p.key hi (by simp [Put.sends, hph])
    rw [updatePutStats_new hnew] at hhandle
    obtain ⟨-, h₂⟩ := Prod.mk.inj (Option.some.inj hhandle)
    obtain ⟨rfl, rfl⟩ := Prod.mk.inj h₂
    exact ⟨hp.stats hi hph rfl now, hs.stats hp hi hph rfl now⟩
  case h_2 hph =>
    have hsends : p.sends = some p.key := by simp [Put.sends, hph]
    have hholds : p.holds = none := by simp [Put.holds, hph]
    have hstored : p.stored = 0 := by simp [Put.stored, hph]
    split at hhandle
    case isTrue =>
      obtain ⟨-, h₂⟩ := Prod.mk.inj (Option.some.inj hhandle)
      obtain ⟨rfl, rfl⟩ := Prod.mk.inj h₂
      refine ⟨hp.move rfl (fun k hk => hp.sends_self hi (hsends.trans hk)) (by simp),
        hs.wait hi hsends rfl hholds rfl hstored rfl⟩
    case isFalse =>
      obtain ⟨-, h₂⟩ := Prod.mk.inj (Option.some.inj hhandle)
      obtain ⟨rfl, rfl⟩ := Prod.mk.inj h₂
      exact ⟨hp.idle rfl rfl, hs.idle hi hholds hstored rfl rfl⟩
  case h_3 hph =>
    obtain ⟨-, h₂⟩ := Prod.mk.inj (Option.some.inj hhandle)
    obtain ⟨rfl, rfl⟩ := Prod.mk.inj h₂
    exact ⟨hp.idle rfl rfl,
      hs.idle hi (by simp [Put.holds, hph]) (by simp [Put.stored, hph]) rfl rfl⟩
  case h_4 => simp at hhandle

/-- **One careful step keeps the invariant.** -/
theorem next_balanced {sys sys' : Sys Key} (h : Balanced sys) {x : Label Key} (hcare : Careful sys x)
    (hstep : next sys x = some sys') : Balanced sys' := by
  cases x with
  | call k data =>
      obtain rfl := Option.some.inj hstep
      exact ⟨h.places.call rfl, h.sums.call rfl⟩
  | run i =>
      simp only [next, Option.bind_eq_bind, Option.bind_eq_some_iff] at hstep
      obtain ⟨p, hi, ⟨phase, s⟩, hrun, hsys⟩ := hstep
      obtain rfl := Option.some.inj hsys
      exact Balanced.run h hi hcare hrun
  | answer i now status =>
      simp only [next, Option.bind_eq_bind, Option.bind_eq_some_iff] at hstep
      obtain ⟨p, hi, ⟨phase, s⟩, hans, hsys⟩ := hstep
      obtain rfl := Option.some.inj hsys
      exact Balanced.answer h hi hans
  | handle i now =>
      simp only [next, Option.bind_eq_bind, Option.bind_eq_some_iff] at hstep
      obtain ⟨p, hi, ⟨retries, phase, s⟩, hhandle, hsys⟩ := hstep
      obtain rfl := Option.some.inj hsys
      exact Balanced.handle h hi hhandle

/-- A new store is settled. -/
theorem settled_bsCreate (size : ℕ) : Settled (bsCreate size : S3BlockStore Key) := by
  refine ⟨⟨?_, ?_, ?_, ?_, ?_, ?_, ?_, ?_, ?_, ?_⟩, ⟨?_, ?_, ?_, ?_⟩⟩ <;>
    simp [bsCreate, Interleave.Once, blockBytes, S3BlockStore.front, S3BlockStore.behind,
      S3BlockStore.bucketBytes]

/-- Careful steps keep the invariant. -/
theorem Settled.balanced {s₀ : S3BlockStore Key} (h₀ : Settled s₀) {sys : Sys Key}
    (hreach : Interleave.Reach next Careful ⟨s₀, []⟩ sys) : Balanced sys := by
  refine Interleave.Reach.inv (I := Balanced) ⟨h₀.places, h₀.sums⟩ ?_ hreach
  exact fun _ _ _ hI hcare hstep => next_balanced hI hcare hstep

/-- **A run whose puts are all done leaves a settled store**, from which the next can start. -/
theorem Settled.of_careful {s₀ : S3BlockStore Key} (h₀ : Settled s₀) {sys : Sys Key}
    (hreach : Interleave.Reach next Careful ⟨s₀, []⟩ sys)
    (hdone : ∀ p ∈ sys.puts, p.phase = .completed ∨ p.phase = .failed) : Settled sys.store := by
  obtain ⟨hp, hs⟩ := h₀.balanced hreach
  -- A put that is done holds nothing and sends nothing.
  have hzero : ∀ f : Put Key → ℤ, (∀ p : Put Key, p.phase = .completed ∨ p.phase = .failed → f p = 0) →
      (sys.puts.map f).sum = 0 := fun f hf => by
    refine List.sum_eq_zero fun z hz => ?_
    obtain ⟨p, hin, rfl⟩ := List.mem_map.1 hz
    exact hf p (hdone p hin)
  have hpurging := hzero (Put.purging sys.store.entry) (by rintro p (h | h) <;> simp [Put.purging, Put.holds, h])
  have hsent := hzero Put.sent (by rintro p (h | h) <;> simp [Put.sent, Put.sends, h])
  have hdeleting := hzero (Put.deleting sys.store.entry) (by rintro p (h | h) <;> simp [Put.deleting, h])
  have hstored := hzero Put.stored (by rintro p (h | h) <;> simp [Put.stored, h])
  refine ⟨⟨hp.nodup, hp.sub, hp.sizes, hp.names, ?_, ?_, ?_, ?_, ?_, ?_⟩, ⟨hs.committed, ?_, ?_, ?_⟩⟩
  · simp
  · simp
  · simp [Interleave.Once]
  · simp
  · simp [Interleave.Once]
  · simp
  · simpa [hpurging] using hs.uncommitted
  · simpa [hsent] using hs.room
  · simpa [hdeleting, hstored] using hs.bucket

/-- **The accounts under concurrent puts**: from any settled store, in every state that careful steps
reach, `m_committed` is the bytes of the block entries in front of the mark and the blocks in S3 do not
take more than the size of the store. -/
theorem accountsRight_of_careful {s₀ : S3BlockStore Key} (h₀ : Settled s₀) {sys : Sys Key}
    (hreach : Interleave.Reach next Careful ⟨s₀, []⟩ sys) : AccountsRight sys.store := by
  have hbal := h₀.balanced hreach
  exact hbal.sums.accountsRight hbal.places

/-- Two puts from their call to the moment when S3 has both requests. -/
def twoPuts (k k' : ℕ) : List (Label ℕ) :=
  [.call k (List.replicate 10 0), .call k' (List.replicate 10 0), .run 0, .run 1, .run 0, .run 1,
    .run 0, .run 1, .run 0, .run 1]

/-- Two puts of different keys into a store of 30 bytes overlap; one is sent twice. -/
theorem accountsRight_two_puts :
    ∃ sys : Sys ℕ, Interleave.Reach next Careful ⟨bsCreate 30, []⟩ sys ∧ sys.store.committed = 20 ∧
      AccountsRight sys.store := by
  obtain ⟨sys, hreach, hq⟩ : ∃ sys : Sys ℕ, Interleave.Reach next Careful ⟨bsCreate 30, []⟩ sys ∧
      decide (sys.store.committed = 20) = true :=
    Interleave.Reach.exists_of_play (p := fun sys x => decide (Careful sys x)) (twoPuts 0 1 ++ [.answer 1 0 .retryable, .handle 1 1, .answer 1 2 .ok, .answer 0 2 .ok,
      .handle 0 3, .handle 1 3])
    (fun _ _ h => of_decide_eq_true h) (by decide)
  exact ⟨sys, hreach, of_decide_eq_true hq, accountsRight_of_careful (settled_bsCreate 30) hreach⟩

/-- Two puts of one key are both charged, and two puts that do not see each other overfill the
store. -/
theorem not_accountsRight_two_puts :
    (∃ sys : Sys ℕ, Interleave.Reach next (fun _ _ => True) ⟨bsCreate 30, []⟩ sys ∧
      sys.store.committed ≠ blockBytes sys.store.entry sys.store.front) ∧
    (∃ sys : Sys ℕ, Interleave.Reach next (fun _ _ => True) ⟨bsCreate 15, []⟩ sys ∧
      ¬ sys.store.bucketBytes ≤ sys.store.size) := by
  constructor
  · obtain ⟨sys, hreach, hq⟩ : ∃ sys : Sys ℕ,
        Interleave.Reach next (fun _ _ => True) ⟨bsCreate 30, []⟩ sys ∧
        decide (sys.store.committed ≠ blockBytes sys.store.entry sys.store.front) = true :=
      Interleave.Reach.exists_of_play (p := fun _ _ => true) (twoPuts 0 0 ++ [.answer 0 1 .ok, .answer 1 1 .ok, .handle 0 2, .handle 1 2])
      (fun _ _ _ => trivial) (by decide)
    exact ⟨sys, hreach, of_decide_eq_true hq⟩
  · obtain ⟨sys, hreach, hq⟩ : ∃ sys : Sys ℕ,
        Interleave.Reach next (fun _ _ => True) ⟨bsCreate 15, []⟩ sys ∧
        decide (¬ sys.store.bucketBytes ≤ sys.store.size) = true :=
      Interleave.Reach.exists_of_play (p := fun _ _ => true) (twoPuts 0 1 ++ [.answer 0 1 .ok, .answer 1 1 .ok]) (fun _ _ _ => trivial) (by decide)
    exact ⟨sys, hreach, of_decide_eq_true hq⟩

end S3BS

end Utopfs
