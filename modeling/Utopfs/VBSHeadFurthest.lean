/-
**The furthest head nodes of several children.**

`VBSHeadFurthestTopReq` asks all children for the nodes furthest from a seed.  If they agree, that is
the answer.  If not, each node that some child reports and not all do is followed on the other
children, and the edges found are inserted into the child that reported it; then the children are asked
again.  If they still do not agree, all edges of the file system are copied from every child to every
other one, and the children are asked for the last time.

There are three kinds of requests below the one of the client: the survey of all children, the
follow-fills, each of which follows a node on all children but one, and the inserts into that one.
They are answered in any order.  As in `Utopfs/VBlockStore.lean`, a completion routine is a section
under the mutex of its request and a list of actions still to be done by the thread.

Main definitions:

* `Furthest.FollowFill`, `Furthest.Act`, `Furthest.State` — the follow-fills, the actions and the
  state;
* `Furthest.common`, `Furthest.unique` — what the survey finds;
* `Furthest.subComplete`, `Furthest.hntComplete`, `Furthest.directedFollowFill`,
  `Furthest.fullFollowFill`, `Furthest.secondCheck`, `Furthest.lastCheck` — the phases;
* `Furthest.exec`, `Furthest.Label`, `Furthest.next` — one action, and one step.

The children hold head node graphs, which nobody else changes.  `hnt_node` of the survey inserts into a `std::map`
without holding the mutex.  What two insertions at the same time would do to it C++ does not say; here a child
reports its nodes in one step.
-/

import Mathlib.Data.List.FinRange
import Mathlib.Tactic
import Utopfs.HeadForest
import Utopfs.VBlockStore

set_option relaxedAutoImplicit false
set_option autoImplicit false

namespace Utopfs

namespace Furthest

open Head Interleave

open VBS (others)

variable {n : ℕ}

/-- A `VBSHeadFollowFillReq`: what is followed on the children other than the target, and how many
traversals and fills are out. -/
structure FollowFill (n : ℕ) where
  hn : HeadNode
  targ : Fin n
  outstanding : ℤ
  travdone : Bool
  fillsout : ℤ

/-- What the client is told. -/
inductive Upcall
  /-- `hnt_node` for each of the nodes, and `hnt_complete` -/
  | complete (nodes : List HeadNode)
  /-- `hnt_error` -/
  | error
  deriving DecidableEq

/-- What a thread has still to do. -/
inductive Act (n : ℕ)
  /-- `enqueue_headnode` of the survey. -/
  | furthest (c : Fin n)
  /-- `VBSHeadFurthestSubReq::complete` -/
  | subComplete
  /-- The body of the loops of `directed_follow_fill` and `full_follow_fill`. -/
  | fill (hn : HeadNode) (c : Fin n)
  /-- `enqueue_headnode` of a follow-fill. -/
  | follow (f : ℕ) (c : Fin n)
  /-- `het_edge` for each of the edges, then `het_complete` or `het_error`. -/
  | traverse (f : ℕ) (edges : List HeadEdge)
  /-- `VBSHeadFollowFillReq::hei_complete`, `hei_error` -/
  | filled (f : ℕ)
  /-- `VBSHeadFollowFillReq::complete` -/
  | fillComplete (f : ℕ)

/-- The children's graphs, the request of the client, the survey in progress with the children that
have it in their queues, the follow-fills with those that have them, the inserts in the queues of the
targets, the threads, what the client has been told, and whether the last survey has failed. -/
structure State (n : ℕ) where
  graph : Fin n → LameHeadNodeGraph
  lasttry : Bool
  ffout : ℤ
  val : ℕ
  outstanding : ℤ
  cnsm : Fin n → Option (Finset HeadNode)
  asked : List (Fin n)
  fills : ℕ → FollowFill n
  nfill : ℕ
  follows : List (ℕ × Fin n)
  inserts : List (ℕ × HeadEdge)
  threads : List (List (Act n))
  upcalls : List Upcall
  threw : Bool

/-! ### The survey -/

/-- The sets of the children that have reported one. -/
def reported (cnsm : Fin n → Option (Finset HeadNode)) : List (Fin n × Finset HeadNode) :=
  (List.finRange n).filterMap fun c => (cnsm c).map fun s => (c, s)

/-- `m_cmnnodes`: the nodes that all children have reported. -/
def common (cnsm : Fin n → Option (Finset HeadNode)) : Finset HeadNode :=
  match (reported cnsm).map Prod.snd with
  | [] => ∅
  | s :: ss => ss.foldl (· ∩ ·) s

/-- `m_unqnodes`: the nodes that a child has reported and not all have. -/
def unique (cnsm : Fin n → Option (Finset HeadNode)) : List (Fin n × HeadNode) :=
  (reported cnsm).flatMap fun x => (sorted (x.2 \ common cnsm)).map fun hn => (x.1, hn)

/-- Asking all children: the part of `init`, `second_check` and `last_check` before the loop. -/
def State.survey (s : State n) (val : ℕ) : State n :=
  { s with
    val := val
    outstanding := n
    cnsm := fun _ => none }

/-- The loop that enqueues the survey. -/
def askAll (n : ℕ) : List (Act n) := (List.finRange n).map .furthest

/-- `second_check` -/
def secondCheck (s : State n) : State n × List (Act n) := (s.survey 1, askAll n)

/-- `last_check` -/
def lastCheck (s : State n) : State n × List (Act n) := (s.survey 2, askAll n)

/-! ### The follow-fills -/

/-- `directed_follow_fill`: the count is set before the first of them is issued. -/
def directedFollowFill (s : State n) : State n × List (Act n) :=
  ({ s with ffout := (unique s.cnsm).length }, (unique s.cnsm).map fun x => .fill x.2 x.1)

/-- `full_follow_fill` -/
def fullFollowFill (hn : HeadNode) (s : State n) : State n × List (Act n) :=
  ({ s with lasttry := true, ffout := n }, (List.finRange n).map fun c => .fill ⟨hn.fstag, []⟩ c)

/-- `VBSHeadFurthestTopReq::hnt_complete` -/
def hntComplete (hn : HeadNode) (s : State n) : State n × List (Act n) :=
  if unique s.cnsm = [] then
    ({ s with upcalls := s.upcalls ++ [.complete (sorted (common s.cnsm))] }, [])
  else if s.val = 0 then directedFollowFill s
  else if s.val = 1 then fullFollowFill hn s
  -- FULL FOLLOWFILL DIDN'T WORK
  else ({ s with threw := true }, [])

/-- `VBSHeadFurthestSubReq::complete` -/
def subComplete (hn : HeadNode) (s : State n) : State n × List (Act n) :=
  if reported s.cnsm = [] then ({ s with upcalls := s.upcalls ++ [.error] }, [])
  else hntComplete hn s

/-- Overwriting a follow-fill. -/
def State.setFill (s : State n) (f : ℕ) (r : FollowFill n) : State n :=
  { s with fills := Function.update s.fills f r }

/-- The end of a traversal: `VBSHeadFollowFillReq::het_complete`, `het_error`. -/
def hetEnd (s : State n) (f : ℕ) : State n × List (Act n) :=
  let r := s.fills f
  if r.outstanding - 1 = 0 then
    (s.setFill f { r with outstanding := r.outstanding - 1, travdone := true },
      if r.fillsout = 0 then [.fillComplete f] else [])
  else (s.setFill f { r with outstanding := r.outstanding - 1 }, [])

/-- The end of a fill: `VBSHeadFollowFillReq::hei_complete`, `hei_error`. -/
def heiEnd (s : State n) (f : ℕ) : State n × List (Act n) :=
  let r := s.fills f
  (s.setFill f { r with fillsout := r.fillsout - 1 },
    if r.travdone ∧ r.fillsout - 1 = 0 then [.fillComplete f] else [])

/-- `VBSHeadFurthestTopReq::het_complete`, `het_error`: when all follow-fills are complete, the
children are asked again. -/
def hetComplete (s : State n) : State n × List (Act n) :=
  let s' := { s with ffout := s.ffout - 1 }
  if s.ffout - 1 = 0 then if s.lasttry then lastCheck s' else secondCheck s' else (s', [])

/-! ### Steps -/

/-- One action: the state after it, and what it puts in front of what the thread has still to do. -/
def exec (hn : HeadNode) (s : State n) : Act n → State n × List (Act n)
  | .furthest c => ({ s with asked := s.asked ++ [c] }, [])
  | .subComplete => subComplete hn s
  | .fill hn' c =>
      ({ s with
          fills := Function.update s.fills s.nfill ⟨hn', c, (n : ℤ) - 1, false, 0⟩
          nfill := s.nfill + 1 }, (others c).map (.follow s.nfill))
  | .follow f c => ({ s with follows := s.follows ++ [(f, c)] }, [])
  | .traverse f [] => hetEnd s f
  | .traverse f (e :: es) =>
      ({ s.setFill f { s.fills f with fillsout := (s.fills f).fillsout + 1 } with
          inserts := s.inserts ++ [(f, e)] }, [.traverse f es])
  | .filled f => heiEnd s f
  | .fillComplete _ => hetComplete s

/-- The steps. -/
inductive Label (n : ℕ)
  /-- A child answers the survey. -/
  | furthest (c : Fin n)
  /-- A child answers a follow-fill. -/
  | follow (f : ℕ) (c : Fin n)
  /-- The target of a follow-fill inserts an edge. -/
  | insert (f : ℕ) (e : HeadEdge)
  /-- A thread runs its next action. -/
  | run (i : ℕ)

/-- `VBSHeadFurthestSubReq::hnt_node` and `hnt_complete`, or `hnt_error`, for the answer of a child. -/
def answer (hn : HeadNode) (s : State n) (c : Fin n) : State n :=
  { s with
    asked := s.asked.erase c
    cnsm := match headFurthest (s.graph c) hn with
      | .ok l => Function.update s.cnsm c (some l.toFinset)
      | .error _ => s.cnsm
    outstanding := s.outstanding - 1
    threads := s.threads ++ [if s.outstanding - 1 = 0 then [.subComplete] else []] }

/-- The edges that a child finds. -/
def found (g : LameHeadNodeGraph) (hn : HeadNode) : List HeadEdge :=
  match headFollow g hn with
  | .ok es => es
  | .error _ => []

/-- One step of a request for the nodes furthest from `hn`. -/
def next (hn : HeadNode) (s : State n) : Label n → Option (State n)
  | .furthest c => if c ∈ s.asked then some (answer hn s c) else none
  | .follow f c =>
      if (f, c) ∈ s.follows then
        some { s with
          follows := s.follows.erase (f, c)
          threads := s.threads ++ [[.traverse f (found (s.graph c) (s.fills f).hn)]] }
      else none
  | .insert f e =>
      if (f, e) ∈ s.inserts then
        some { s with
          graph := Function.update s.graph (s.fills f).targ (insertOrKeep (s.graph (s.fills f).targ) e)
          inserts := s.inserts.erase (f, e)
          threads := s.threads ++ [[.filled f]] }
      else none
  | .run i =>
      match s.threads[i]? with
      | some (a :: k) =>
          let (s', m) := exec hn s a
          some { s' with threads := s.threads.set i (m ++ k) }
      | _ => none

/-- `bs_head_furthest_async` on children with the given graphs: `init` has made the survey. -/
def State.init [NeZero n] (graph : Fin n → LameHeadNodeGraph) : State n where
  graph := graph
  lasttry := false
  ffout := 0
  val := 0
  outstanding := n
  cnsm := fun _ => none
  asked := []
  fills := fun _ => ⟨⟨[], []⟩, 0, 0, false, 0⟩
  nfill := 0
  follows := []
  inserts := []
  threads := [askAll n]
  upcalls := []
  threw := false

end Furthest

end Utopfs
