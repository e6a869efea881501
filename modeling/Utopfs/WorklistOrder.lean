/-
**Replacing the smallest element first.**

`Utopfs/Worklist.lean` leaves open which element of the set is replaced by its successors.  Here the
nodes are ordered and it is the smallest that has successors.  An element can leave the set and come
back, and is then replaced again.  Whether that happens depends on the order: a node `n` comes back if
it is replaced while another node `m` that leads to it waits in the set, and that is the case as soon as
`n` can be reached through nodes smaller than `m` from a point from which `m` is reached too.

* `Worklist.Expands` — the nodes that are replaced, in their order;
* `Worklist.Front`, `Worklist.Low`, `Worklist.Clash` — nodes of which the first waits for the second;
* `Worklist.Expands.mem_iff` — the nodes that are reached and have successors are replaced;
* `Worklist.Expands.acyclicFrom` — the replacing comes to an end only where no cycle is reached;
* `Worklist.Expands.nodup_iff` — each of them once, exactly if there is no clash.

Nothing here mentions a particular type of nodes.
-/

import Mathlib.Order.Defs.LinearOrder
import Utopfs.Worklist

set_option relaxedAutoImplicit false
set_option autoImplicit false

namespace Worklist

open Relation

variable {V : Type} [LinearOrder V] {edges : List (V × V)} {l l' : Finset V} {ns : List V} {n : V}

/-- **The nodes that are replaced**, one after the other, until only sinks are left. -/
inductive Expands (edges : List (V × V)) : Finset V → List V → Prop
  | done {l : Finset V} (h : ∀ s ∈ l, Sink edges s) : Expands edges l []
  | step {l l' : Finset V} {n : V} {ns : List V} (h : Replaced edges n l l')
      (hmin : ∀ x ∈ l, ¬ Sink edges x → n ≤ x) (rest : Expands edges l' ns) : Expands edges l (n :: ns)

/-- The nodes that are reached and have successors are replaced. -/
theorem Expands.mem_iff (h : Expands edges l ns) (v : V) :
    v ∈ ns ↔ Reaches edges l v ∧ ¬ Sink edges v := by
  induction h with
  | done hsink =>
      rw [reaches_sink_iff hsink]
      simpa using hsink v
  | @step l l' n ns hrep _ _ ih =>
      have hn : ¬ Sink edges n := fun hs => by
        obtain ⟨u, hu⟩ := hrep.kids
        exact hs u hu
      rw [List.mem_cons, ih, hrep.reaches_or v]
      constructor
      · rintro (rfl | ⟨hr, hv⟩)
        · exact ⟨.inl rfl, hn⟩
        · exact ⟨.inr hr, hv⟩
      · rintro ⟨rfl | hr, hv⟩
        · exact .inl rfl
        · exact .inr ⟨hr, hv⟩

/-- The replacing comes to an end only where no cycle is reached. -/
theorem Expands.acyclicFrom (h : Expands edges l ns) : AcyclicFrom edges l := by
  induction h with
  | done hsink =>
      intro v hv hcycle
      obtain ⟨u, hu, -⟩ := TransGen.head'_iff.1 hcycle
      exact hsink v ((reaches_sink_iff hsink v).1 hv) u hu
  | step hrep _ _ ih => exact fun v hv hcycle => ih v (hrep.reaches_cycle hv hcycle) hcycle

/-! ### Clashes -/

/-- The nodes that come into the set together: the first ones, or the successors of a node that is
reached. -/
inductive Front (edges : List (V × V)) (l : Finset V) : Set V → Prop
  | start : Front edges l {x | x ∈ l}
  | kids (b : V) (h : Reaches edges l b) : Front edges l {x | (b, x) ∈ edges}

/-- An edge from a node smaller than `m`. -/
def Low (edges : List (V × V)) (m a b : V) : Prop := (a, b) ∈ edges ∧ a < m

/-- **A clash**: `m` leads to `n`, which has successors, but from where `m` is reached there is also a
way to `n` through nodes smaller than `m`. -/
structure Clash (edges : List (V × V)) (l : Finset V) (m n : V) : Prop where
  lt : n < m
  path : TransGen (Edge edges) m n
  inner : ¬ Sink edges n
  fork : ∃ B, Front edges l B ∧ (∃ s ∈ B, ReflTransGen (Edge edges) s m) ∧
    ∃ s ∈ B, ReflTransGen (Low edges m) s n

theorem path_of_low {m a b : V} (h : ReflTransGen (Low edges m) a b) : ReflTransGen (Edge edges) a b :=
  ReflTransGen.mono (fun _ _ he => he.1) a b h

theorem low_mono {m m' : V} (hm : m ≤ m') {a b : V} (h : ReflTransGen (Low edges m) a b) :
    ReflTransGen (Low edges m') a b :=
  ReflTransGen.mono (fun _ _ he => ⟨he.1, he.2.trans_le hm⟩) a b h

/-- Where all edges lead to larger nodes there is no clash. -/
theorem not_clash_of_lt (h : ∀ e ∈ edges, e.1 < e.2) (m n : V) : ¬ Clash edges l m n := by
  intro hc
  have hlt : ∀ a b, TransGen (Edge edges) a b → a < b := by
    intro a b hab
    induction hab with
    | single he => exact h _ he
    | tail _ he ih => exact ih.trans (h _ he)
  exact (hlt m n hc.path).asymm hc.lt

/-- While `m` waits and the way to `n` is open, `n` is replaced before `m` and comes back. -/
theorem Expands.not_nodup_of_low (h : Expands edges l ns) {m n : V} (hlt : n < m)
    (hpath : TransGen (Edge edges) m n) (hinner : ¬ Sink edges n) (hm : Reaches edges l m)
    (hn : ∃ s ∈ l, ReflTransGen (Low edges m) s n) : ¬ ns.Nodup := by
  induction h with
  | done hsink =>
      obtain ⟨s, hs, hp⟩ := hn
      obtain rfl := (hsink s hs).eq_of_path (path_of_low hp)
      exact absurd (hsink _ hs) hinner
  | @step l l' k ns hrep hmin hrest ih =>
      obtain ⟨s, hs, hp⟩ := hn
      -- the first node of the way has successors and is smaller than `m`
      have hs' : ¬ Sink edges s ∧ s < m := by
        rcases ReflTransGen.cases_head hp with rfl | ⟨c, hc, -⟩
        · exact ⟨hinner, hlt⟩
        · exact ⟨fun hsink => hsink c hc.1, hc.2⟩
      have hkm : k < m := (hmin s hs hs'.1).trans_lt hs'.2
      have hm' : Reaches edges l' m := ((hrep.reaches_or m).1 hm).resolve_left hkm.ne'
      rw [List.nodup_cons, not_and_or, not_not]
      by_cases hkn : k = n
      · subst hkn
        obtain ⟨t, ht, htm⟩ := hm'
        exact .inl ((hrest.mem_iff k).2 ⟨⟨t, ht, htm.trans hpath.to_reflTransGen⟩, hinner⟩)
      · refine .inr (ih hm' ?_)
        by_cases hsk : s = k
        · subst hsk
          rcases ReflTransGen.cases_head hp with rfl | ⟨c, hc, hp⟩
          · exact absurd rfl hkn
          · exact ⟨c, (hrep.mem_iff c).2 (.inr hc.1), hp⟩
        · exact ⟨s, (hrep.mem_iff s).2 (.inl ⟨hs, hsk⟩), hp⟩

/-- After a clash a node is replaced twice. -/
theorem Expands.not_nodup_of_clash (h : Expands edges l ns) {m n : V} (hc : Clash edges l m n) :
    ¬ ns.Nodup := by
  obtain ⟨hlt, hpath, hinner, B, hB, ⟨s, hs, hsm⟩, t, ht, htn⟩ := hc
  cases hB with
  | start => exact h.not_nodup_of_low hlt hpath hinner ⟨s, hs, hsm⟩ ⟨t, ht, htn⟩
  | kids b hb =>
      -- the fork is in the set when its node is replaced
      induction h with
      | done hsink => exact absurd hs (hsink b ((reaches_sink_iff hsink b).1 hb) s)
      | @step l l' k ns hrep hmin hrest ih =>
          rw [List.nodup_cons, not_and_or]
          right
          rcases (hrep.reaches_or b).1 hb with rfl | hb
          · exact hrest.not_nodup_of_low hlt hpath hinner ⟨s, (hrep.mem_iff s).2 (.inr hs), hsm⟩
              ⟨t, (hrep.mem_iff t).2 (.inr ht), htn⟩
          · exact ih hb

/-! ### Without clashes -/

/-- Two nodes are reached from one front through nodes smaller than the larger of them. -/
def Meet (edges : List (V × V)) (l : Finset V) (p q : V) : Prop :=
  ∃ B, Front edges l B ∧ (∃ s ∈ B, ReflTransGen (Low edges (max p q)) s p) ∧
    ∃ s ∈ B, ReflTransGen (Low edges (max p q)) s q

theorem Meet.symm {p q : V} (h : Meet edges l p q) : Meet edges l q p := by
  obtain ⟨B, hB, hp, hq⟩ := h
  rw [max_comm] at hp hq
  exact ⟨B, hB, hq, hp⟩

/-- What a round puts in the place of the smaller of two nodes meets the other. -/
theorem Meet.next {p q : V} (h : Meet edges l p n) (hlt : n < p) (hq : (n, q) ∈ edges) :
    Meet edges l p q := by
  obtain ⟨B, hB, ⟨s, hs, hsp⟩, t, ht, htn⟩ := h
  rw [max_eq_left hlt.le] at hsp htn
  exact ⟨B, hB, ⟨s, hs, low_mono (le_max_left p q) hsp⟩,
    t, ht, low_mono (le_max_left p q) (htn.tail ⟨hq, hlt⟩)⟩

/-- Without clashes no node is replaced twice, from any set whose elements meet. -/
theorem Expands.nodup_of_meet {l₀ : Finset V} (ha : AcyclicFrom edges l₀)
    (hno : ∀ m n, ¬ Clash edges l₀ m n) (h : Expands edges l ns)
    (hreach : ∀ x ∈ l, Reaches edges l₀ x)
    (hmeet : ∀ p ∈ l, ∀ q ∈ l, p ≠ q → ¬ Sink edges p → ¬ Sink edges q → Meet edges l₀ p q) :
    ns.Nodup := by
  induction h with
  | done _ => exact List.nodup_nil
  | @step l l' n ns hrep hmin hrest ih =>
      have hn : ¬ Sink edges n := fun hs => by
        obtain ⟨u, hu⟩ := hrep.kids
        exact hs u hu
      have hlt {p : V} (hp : p ∈ l) (hne : p ≠ n) (hinner : ¬ Sink edges p) : n < p :=
        lt_of_le_of_ne (hmin p hp hinner) hne.symm
      rw [List.nodup_cons]
      constructor
      · intro hmem
        obtain ⟨⟨x, hx, hp⟩, -⟩ := (hrest.mem_iff n).1 hmem
        rcases (hrep.mem_iff x).1 hx with ⟨hxl, hxn⟩ | hx
        · -- another element leads to `n`, which is replaced before it
          have hpath : TransGen (Edge edges) x n :=
            (reflTransGen_iff_eq_or_transGen.1 hp).resolve_left hxn.symm
          have hinner : ¬ Sink edges x := by
            obtain ⟨c, hc, -⟩ := TransGen.head'_iff.1 hpath
            exact fun hs => hs c hc
          obtain ⟨B, hB, ⟨s, hs, hsx⟩, t, ht, htn⟩ := hmeet x hxl n hrep.mem hxn hinner hn
          rw [max_eq_left (hlt hxl hxn hinner).le] at htn
          exact hno x n ⟨hlt hxl hxn hinner, hpath, hn, B, hB, ⟨s, hs, path_of_low hsx⟩, t, ht, htn⟩
        · exact ha n (hreach n hrep.mem) (TransGen.head' hx hp)
      · refine ih (fun x hx => ?_) fun p hp q hq hpq hp' hq' => ?_
        · rcases (hrep.mem_iff x).1 hx with ⟨hxl, -⟩ | hx
          · exact hreach x hxl
          · obtain ⟨s, hs, hsn⟩ := hreach n hrep.mem
            exact ⟨s, hs, hsn.tail hx⟩
        · rcases (hrep.mem_iff p).1 hp with ⟨hpl, hpn⟩ | hp
          · rcases (hrep.mem_iff q).1 hq with ⟨hql, hqn⟩ | hq
            · exact hmeet p hpl q hql hpq hp' hq'
            · exact (hmeet p hpl n hrep.mem hpn hp' hn).next (hlt hpl hpn hp') hq
          · rcases (hrep.mem_iff q).1 hq with ⟨hql, hqn⟩ | hq
            · exact ((hmeet q hql n hrep.mem hqn hq' hn).next (hlt hql hqn hq') hp).symm
            · exact ⟨_, .kids n (hreach n hrep.mem), ⟨p, hp, .refl⟩, q, hq, .refl⟩

/-- **Every node is replaced once at most, exactly if there is no clash.** -/
theorem Expands.nodup_iff (h : Expands edges l ns) :
    ns.Nodup ↔ ∀ m n, ¬ Clash edges l m n := by
  constructor
  · exact fun hnd m n hc => h.not_nodup_of_clash hc hnd
  · exact fun hno => h.nodup_of_meet h.acyclicFrom hno (fun x hx => ⟨x, hx, .refl⟩)
      fun p hp q hq _ _ _ => ⟨_, .start, ⟨p, hp, .refl⟩, q, hq, .refl⟩

end Worklist
