/-
**The log of the head edges.**

`FSBlockStore::bs_head_insert_async` appends the edge to the file `HEADS` and then inserts it into the
graph; `bs_open` replays the file.  The graph rejects a self-loop, and an edge whose bytes do not parse.
By then the line has been written, so the file is no longer what the graph is made of, and the replay
comes to the same edge and fails with it, now and at every later opening.

Main definitions:

* `Head.SignedHeadEdge`, `Head.HeadCodec`, `Head.LameGraph` — the graph with the signed edges;
* `Head.insertSigned` — `LameHeadNodeGraph::insert_head` on them;
* `Head.HeadStore`, `Head.bsHeadInsert`, `Head.bsReopen` — the file and the graph;
* `Head.LogKept` — a failed insert changes neither, and the store can be reopened at any time.

Main results:

* `Head.bare_insertSigned` — the signatures make no difference to the graph;
* `Head.runs_spec` — the file has all edges, the graph those that are accepted;
* `Head.logKept_iff` — the log is kept exactly if no edge is rejected.
-/

import Mathlib.Tactic
import Utopfs.Base64
import Utopfs.HeadNodeGraph
import Utopfs.Prog
import Utopfs.Wire

set_option relaxedAutoImplicit false
set_option autoImplicit false

namespace Utopfs

namespace Head

open Base64 Prog

/-! ### Signed edges -/

/-- A `SignedHeadEdge` message. -/
structure SignedHeadEdge where
  headedge : Octets
  keyid : Octets
  signature : Octets

/-- What the store uses of the protocol buffers: a signed edge is parsed as it was serialized; the bytes
of its edge may be any. -/
structure HeadCodec where
  serialize : SignedHeadEdge → Octets
  parse : Octets → Option SignedHeadEdge
  parse_serialize : ∀ she, parse (serialize she) = some she
  parseEdge : Octets → Option HeadEdge

/-- A `LameEdge`. -/
structure LameEdge where
  she : SignedHeadEdge
  edge : HeadEdge

/-- The graph with the signed edges that it stores. -/
structure LameGraph where
  stored : List LameEdge
  roots : Finset HeadNode

/-- `LameHeadNodeGraph()`. -/
def LameGraph.empty : LameGraph := ⟨[], ∅⟩

/-- The graph without the signatures. -/
def LameGraph.bare (g : LameGraph) : LameHeadNodeGraph := ⟨g.stored.map LameEdge.edge, g.roots⟩

variable (codec : HeadCodec)

/-- `LameEdge(i_she)`. -/
def lameEdge (she : SignedHeadEdge) : Except Exn LameEdge :=
  match codec.parseEdge she.headedge with
  | some e => return ⟨she, e⟩
  | none => throw (.internalError "failed to parse headedge")

/-- `LameHeadNodeGraph::insert_head`, after the edge has been parsed. -/
def insertLame (g : LameGraph) (eh : LameEdge) : Except Exn LameGraph :=
  if eh.edge.prev = eh.edge.root then
    throw (.internalError "we'd really rather not have self-loops")
  -- Do we already have this edge?
  else if eh.edge.prev ∈ g.stored.map (fun x => x.edge.prev) ∧
      eh.edge.root ∈ g.stored.map (fun x => x.edge.root) then return g
  else
    let stored := g.stored ++ [eh]
    let roots := g.roots.erase eh.edge.root
    return {
      stored := stored
      roots := if eh.edge.prev ∈ stored.map (fun x => x.edge.root) then roots
        else insert eh.edge.prev roots }

/-- `LameHeadNodeGraph::insert_head` -/
def insertSigned (g : LameGraph) (she : SignedHeadEdge) : Except Exn LameGraph := do
  let eh ← lameEdge codec she
  insertLame g eh

/-- The edge is accepted: its bytes parse, and it is no self-loop. -/
def Accepted (she : SignedHeadEdge) : Prop :=
  ∃ e, codec.parseEdge she.headedge = some e ∧ e.prev ≠ e.root

variable {codec}

/-- **The signatures make no difference to the graph.** -/
theorem bare_insertSigned {she : SignedHeadEdge} {e : HeadEdge}
    (he : codec.parseEdge she.headedge = some e) (g : LameGraph) :
    (insertSigned codec g she).map LameGraph.bare = insertHead g.bare e := by
  have hprev : g.bare.edges.map HeadEdge.prev = g.stored.map fun x => x.edge.prev := by
    simp [LameGraph.bare]
  have hroot : g.bare.edges.map HeadEdge.root = g.stored.map fun x => x.edge.root := by
    simp [LameGraph.bare]
  have hrun : insertSigned codec g she = insertLame g ⟨she, e⟩ := by
    simp [insertSigned, lameEdge, he, bind, Except.bind, pure, Except.pure]
  rw [hrun, insertLame, insertHead, hprev, hroot]
  by_cases hself : e.prev = e.root
  · rw [if_pos hself, if_pos hself]
    rfl
  · rw [if_neg hself, if_neg hself]
    split
    · rfl
    · simp [LameGraph.bare, Except.map, pure, Except.pure]

theorem insertSigned_ok_iff (g : LameGraph) (she : SignedHeadEdge) :
    (∃ g', insertSigned codec g she = .ok g') ↔ Accepted codec she := by
  cases he : codec.parseEdge she.headedge with
  | none => simp [insertSigned, lameEdge, he, Accepted, bind, Except.bind, throw, throwThe,
      MonadExceptOf.throw]
  | some e =>
      have hrun : insertSigned codec g she = insertLame g ⟨she, e⟩ := by
        simp [insertSigned, lameEdge, he, bind, Except.bind, pure, Except.pure]
      rw [hrun, insertLame]
      by_cases hself : e.prev = e.root
      · simp [hself, he, Accepted, throw, throwThe, MonadExceptOf.throw]
      · simp only [if_neg hself]
        refine iff_of_true ?_ ⟨e, he, hself⟩
        split <;> exact ⟨_, rfl⟩

/-! ### The store -/

/-- The file `HEADS` and the graph `m_lhng` of an `FSBlockStore`. -/
structure HeadStore where
  heads : List Char
  lhng : LameGraph

/-- A store that has been created. -/
def HeadStore.init : HeadStore := ⟨[], .empty⟩

variable (codec)

/-- `FSBlockStore::write_head` -/
def writeHead (she : SignedHeadEdge) : EStateM Exn HeadStore Unit :=
  modify fun s => { s with heads := s.heads ++ (encode (codec.serialize she) ++ ['\n']) }

/-- `FSBlockStore::bs_head_insert_async` -/
def bsHeadInsert (she : SignedHeadEdge) : EStateM Exn HeadStore Unit := do
  writeHead codec she
  match insertSigned codec (← get).lhng she with
  | .ok g => modify fun s => { s with lhng := g }
  | .error e => throw e

/-- The part of `bs_open` that reads the existing edges. -/
def readHeads (heads : List Char) : Except Exn LameGraph :=
  (getlines heads).foldlM (fun g line =>
    match codec.parse (decode line) with
    | some she => insertSigned codec g she
    | none => throw (.internalError "SignedHeadEdge deserialize failed")) .empty

/-- `bs_close`, and `bs_open` of a new instance. -/
def bsReopen : EStateM Exn HeadStore Unit := do
  match readHeads codec (← get).heads with
  | .ok g => modify fun s => { s with lhng := g }
  | .error e => throw e

/-- The operations. -/
inductive HeadOp
  | insert (she : SignedHeadEdge)
  | reopen

/-- Running an operation. -/
def HeadOp.run : HeadOp → EStateM Exn HeadStore Unit
  | .insert she => bsHeadInsert codec she
  | .reopen => bsReopen codec

/-- The store after an operation, which may fail. -/
def HeadOp.after (s : HeadStore) (op : HeadOp) : HeadStore :=
  match op.run codec s with
  | .ok _ s' => s'
  | .error _ s' => s'

/-- The store after a sequence of operations. -/
def runs (ops : List HeadOp) : HeadStore := ops.foldl (HeadOp.after codec) .init

/-- **The log is kept**: a failed insert leaves the file and the graph alone, and at any time the store
can be reopened with the same stored edges. -/
structure LogKept (ops : List HeadOp) : Prop where
  failed : ∀ pre she e s', pre ++ [.insert she] <+: ops →
    bsHeadInsert codec she (runs codec pre) = .error e s' → s' = runs codec pre
  reopens : ∀ pre, pre <+: ops →
    ∃ s', bsReopen codec (runs codec pre) = .ok ⟨⟩ s' ∧ s'.heads = (runs codec pre).heads ∧
      s'.lhng.stored = (runs codec pre).lhng.stored

/-! ### What is in the file and in the graph -/

/-- The edges that are inserted. -/
def inserts (ops : List HeadOp) : List SignedHeadEdge :=
  ops.filterMap fun op =>
    match op with
    | .insert she => some she
    | .reopen => none

/-- The graph after an insert, which may fail. -/
def insertSignedOrKeep (g : LameGraph) (she : SignedHeadEdge) : LameGraph :=
  match insertSigned codec g she with
  | .ok g' => g'
  | .error _ => g

variable {codec}

/-- The file is read as the edges that have been written. -/
theorem readHeads_text (shes : List SignedHeadEdge) :
    readHeads codec (text (shes.map codec.serialize)) =
      shes.foldlM (insertSigned codec) LameGraph.empty := by
  rw [readHeads, getlines_text, List.map_map, List.foldlM_map]
  simp [decode_encode, codec.parse_serialize]

/-- A replay succeeds exactly if all edges are accepted, and then gives the graph that they have been
inserted into. -/
theorem foldlM_insertSigned (shes : List SignedHeadEdge) : ∀ g : LameGraph,
    ((∀ she ∈ shes, Accepted codec she) ∧
      shes.foldlM (insertSigned codec) g = .ok (shes.foldl (insertSignedOrKeep codec) g)) ∨
    (¬ (∀ she ∈ shes, Accepted codec she) ∧
      ∃ e, shes.foldlM (insertSigned codec) g = .error e) := by
  induction shes with
  | nil => exact fun g => .inl ⟨by simp, rfl⟩
  | cons she shes ih =>
      intro g
      rw [List.foldlM_cons, List.foldl_cons, List.forall_mem_cons, insertSignedOrKeep]
      cases hrun : insertSigned codec g she with
      | ok g' =>
          have hacc := (insertSigned_ok_iff g she).1 ⟨g', hrun⟩
          rcases ih g' with ⟨hall, hok⟩ | ⟨hno, herr⟩
          · exact .inl ⟨⟨hacc, hall⟩, hok⟩
          · exact .inr ⟨fun h => hno h.2, herr⟩
      | error e =>
          refine .inr ⟨fun h => ?_, e, rfl⟩
          obtain ⟨g', hok⟩ := (insertSigned_ok_iff g she).2 h.1
          rw [hok] at hrun
          simp at hrun

theorem bsHeadInsert_run (s : HeadStore) (she : SignedHeadEdge) : bsHeadInsert codec she s =
    match insertSigned codec s.lhng she with
    | .ok g => .ok ⟨⟩ ⟨s.heads ++ (encode (codec.serialize she) ++ ['\n']), g⟩
    | .error e => .error e ⟨s.heads ++ (encode (codec.serialize she) ++ ['\n']), s.lhng⟩ := by
  simp only [bsHeadInsert, writeHead, bind_apply, modify_apply, get_apply]
  cases insertSigned codec s.lhng she <;> rfl

theorem bsReopen_run (s : HeadStore) : bsReopen codec s =
    match readHeads codec s.heads with
    | .ok g => .ok ⟨⟩ ⟨s.heads, g⟩
    | .error e => .error e s := by
  simp only [bsReopen, bind_apply, get_apply]
  cases readHeads codec s.heads <;> rfl

/-- **The file has all edges, the graph those that are accepted.** -/
theorem runs_spec (ops : List HeadOp) :
    runs codec ops = ⟨text ((inserts ops).map codec.serialize),
      (inserts ops).foldl (insertSignedOrKeep codec) .empty⟩ := by
  induction ops using List.reverseRecOn with
  | nil => rfl
  | append_singleton ops op ih =>
      have hstep : runs codec (ops ++ [op]) = HeadOp.after codec (runs codec ops) op := by
        simp [runs, List.foldl_append]
      rw [hstep, ih]
      cases op with
      | insert she =>
          have hins : inserts (ops ++ [.insert she]) = inserts ops ++ [she] := by
            simp [inserts]
          simp only [HeadOp.after, HeadOp.run, bsHeadInsert_run, hins, List.map_append, List.foldl_append,
            List.foldl_cons, List.foldl_nil, insertSignedOrKeep, text, List.flatMap_append]
          cases insertSigned codec _ she <;> simp
      | reopen =>
          have hins : inserts (ops ++ [.reopen]) = inserts ops := by
            simp [inserts]
          simp only [HeadOp.after, HeadOp.run, bsReopen_run, readHeads_text, hins]
          rcases @foldlM_insertSigned codec (inserts ops) .empty with ⟨-, hok⟩ | ⟨-, e, herr⟩
          · rw [hok]
          · rw [herr]

theorem mem_inserts {ops : List HeadOp} {she : SignedHeadEdge} :
    she ∈ inserts ops ↔ .insert she ∈ ops := by
  simp only [inserts, List.mem_filterMap]
  constructor
  · rintro ⟨op, hop, heq⟩
    cases op with
    | insert she' => simpa [← Option.some.inj heq] using hop
    | reopen => simp at heq
  · exact fun h => ⟨_, h, rfl⟩

/-- The store can be reopened exactly if no edge has been rejected so far. -/
theorem reopen_runs (ops : List HeadOp) :
    ((∀ she, .insert she ∈ ops → Accepted codec she) ∧
      bsReopen codec (runs codec ops) = .ok ⟨⟩ (runs codec ops)) ∨
    (¬ (∀ she, .insert she ∈ ops → Accepted codec she) ∧
      ∃ e, bsReopen codec (runs codec ops) = .error e (runs codec ops)) := by
  simp only [← mem_inserts]
  rw [runs_spec, bsReopen_run]
  simp only [readHeads_text]
  rcases @foldlM_insertSigned codec (inserts ops) .empty with ⟨hall, hok⟩ | ⟨hno, e, herr⟩
  · exact .inl ⟨hall, by rw [hok]⟩
  · exact .inr ⟨hno, e, by rw [herr]⟩

/-- A log that is kept has no rejected edge. -/
theorem LogKept.accepted {ops : List HeadOp} (h : LogKept codec ops) :
    ∀ she, .insert she ∈ ops → Accepted codec she := by
  rcases @reopen_runs codec ops with ⟨hall, -⟩ | ⟨-, e, herr⟩
  · exact hall
  · obtain ⟨s', hok, -⟩ := h.reopens ops (List.prefix_refl ops)
    rw [hok] at herr
    simp at herr

/-- **When the log is kept.**  In a run of inserts and reopenings of a store, failed inserts leave the
file and the graph alone and the store can be reopened at any time with the same stored edges, exactly
if the bytes of every edge parse and none is a self-loop. -/
theorem logKept_iff (codec : HeadCodec) (ops : List HeadOp) :
    LogKept codec ops ↔ ∀ she, .insert she ∈ ops → Accepted codec she := by
  constructor
  · exact LogKept.accepted
  · intro hall
    constructor
    · intro pre she e s' hpre hrun
      obtain ⟨g', hok⟩ := (insertSigned_ok_iff (runs codec pre).lhng she).2
        (hall she (hpre.subset (by simp)))
      rw [bsHeadInsert_run, hok] at hrun
      simp at hrun
    · intro pre hpre
      rcases @reopen_runs codec pre with ⟨-, hok⟩ | ⟨hno, -⟩
      · exact ⟨_, hok, rfl, rfl⟩
      · exact absurd (fun she hmem => hall she (hpre.subset hmem)) hno

/-! ### A rejected edge -/

open Wire

/-- The `SignedHeadEdge` message. -/
def signedHeadEdgeMessage (she : SignedHeadEdge) : Octets :=
  bytesField 0x0a she.headedge ++ (bytesField 0x12 she.keyid ++ bytesField 0x1a she.signature)

/-- The parser of the `SignedHeadEdge` message. -/
def readSignedHeadEdge (l : Octets) : Option SignedHeadEdge := do
  let (headedge, l) ← readBytesField 0x0a l
  let (keyid, l) ← readBytesField 0x12 l
  let (signature, _) ← readBytesField 0x1a l
  return { headedge, keyid, signature }

/-- The parser of the `HeadEdge` message, which must have a time as well. -/
def readHeadEdge (l : Octets) : Option HeadEdge := do
  let (fstag, l) ← readBytesField 0x0a l
  let (rootref, l) ← readBytesField 0x12 l
  let (prevref, l) ← readBytesField 0x1a l
  let _ ← readVarintField 0x20 l
  return { fstag, prevref, rootref }

/-- An instance of the protocol buffers. -/
def HeadCodec.sample : HeadCodec where
  serialize := signedHeadEdgeMessage
  parse := readSignedHeadEdge
  parse_serialize she := by
    have h := readBytesField_bytesField 0x1a she.signature []
    rw [List.append_nil] at h
    simp only [readSignedHeadEdge, signedHeadEdgeMessage, readBytesField_bytesField, bind,
      Option.bind_some, h]
    rfl
  parseEdge := readHeadEdge

/-- A signed edge from a node to itself. -/
def selfLoop : SignedHeadEdge :=
  ⟨bytesField 0x0a [0] ++ (bytesField 0x12 [1] ++ (bytesField 0x1a [1] ++ varintField 0x20 7)), [], []⟩

/-- **A store that cannot be reopened.**  The insert of the self-loop fails and leaves the graph alone,
but the file has a line with it, and the replay fails. -/
theorem not_logKept : ¬ LogKept .sample [.insert selfLoop] ∧
    (∃ e s, bsHeadInsert .sample selfLoop .init = .error e s ∧ s.heads ≠ [] ∧ s.lhng = .empty) ∧
    ∃ e s, bsReopen .sample (runs .sample [.insert selfLoop]) = .error e s := by
  have hno : ¬ Accepted .sample selfLoop := by
    rintro ⟨e, he, hne⟩
    obtain rfl : (⟨[0], [1], [1]⟩ : HeadEdge) = e := Option.some.inj he
    exact hne rfl
  refine ⟨fun h => hno (h.accepted selfLoop List.mem_cons_self), ?_, ?_⟩
  · have herr : insertSigned .sample .empty selfLoop =
      .error (.internalError "we'd really rather not have self-loops") := rfl
    refine ⟨_, _, by rw [bsHeadInsert_run, HeadStore.init, herr], ?_, rfl⟩
    simp
  · rcases @reopen_runs .sample [.insert selfLoop] with ⟨hall, -⟩ | ⟨-, e, herr⟩
    · exact absurd (hall selfLoop List.mem_cons_self) hno
    · exact ⟨e, _, herr⟩

end Head

end Utopfs
