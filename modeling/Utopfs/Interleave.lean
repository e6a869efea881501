/-
**Transition systems and interleaved threads.**

A transition system is a partial function `next` from a state and a label to the next state.  The
states that count are those reached from the initial one by labelled steps, all of which may be asked
to meet a condition `P`.

Code that releases its locks between two effects is a sequence of atomic actions, and a program with
several such sequences in progress is a list of threads, any of which may run its first action next.
What the invariants of such a program say about the actions still to come is a *weight*: a number for
each action, summed over all threads.

* `Interleave.Reach` — the states reached by steps that meet a condition;
* `Interleave.Reach.inv` — the rule for invariants;
* `Interleave.play` — running a list of labels;
* `Interleave.Ends`, `Interleave.ends_of_lt`, `Interleave.not_ends_of_play` — every sequence of steps
  ends, by a measure that decreases; and does not, by steps that can be played over and over;
* `Interleave.Ends.exists_stuck` — then a state without a further step is reached;
* `Interleave.set_cases`, `Interleave.sum_set` — a list of parties of which one has moved;
* `Interleave.weight` — the weight of the actions still to come;
* `Interleave.weight_set` — what running one action does to the weight;
* `Interleave.pending`, `Interleave.pending_run` — the actions still to come, in no order.

Nothing here mentions a particular program.
-/

import Mathlib.Algebra.BigOperators.Group.List.Basic
import Mathlib.Order.WellFounded
import Mathlib.Tactic

set_option relaxedAutoImplicit false
set_option autoImplicit false

namespace Interleave

/-! ### Runs -/

section runs

variable {σ l : Type}

/-- The states reached from `s₀` by steps that meet the condition `P` on the state before the step
and the label. -/
inductive Reach (next : σ → l → Option σ) (P : σ → l → Prop) (s₀ : σ) : σ → Prop
  | init : Reach next P s₀ s₀
  | step {s s' : σ} (x : l) : Reach next P s₀ s → P s x → next s x = some s' → Reach next P s₀ s'

/-- What holds at the start and is kept by every step holds in every state reached. -/
theorem Reach.inv {next : σ → l → Option σ} {P : σ → l → Prop} {s₀ : σ} {I : σ → Prop} (h₀ : I s₀)
    (hstep : ∀ s x s', I s → P s x → next s x = some s' → I s') {s : σ}
    (h : Reach next P s₀ s) : I s := by
  induction h with
  | init => exact h₀
  | step x _ hP hnext ih => exact hstep _ x _ ih hP hnext

/-- Playing a list of labels whose steps pass a test. -/
def play (next : σ → l → Option σ) (p : σ → l → Bool) : σ → List l → Option σ
  | s, [] => some s
  | s, x :: xs =>
      match p s x, next s x with
      | true, some s' => play next p s' xs
      | _, _ => none

theorem play_cons {next : σ → l → Option σ} {p : σ → l → Bool} {s s' : σ} {x : l} (hp : p s x = true)
    (h : next s x = some s') (xs : List l) : play next p s (x :: xs) = play next p s' xs := by
  rw [play, hp, h]

/-- What can be played is reached. -/
theorem Reach.trans_play {next : σ → l → Option σ} {p : σ → l → Bool} {P : σ → l → Prop}
    (hp : ∀ s x, p s x = true → P s x) {s₀ s s' : σ} {xs : List l} (hs : Reach next P s₀ s)
    (h : play next p s xs = some s') : Reach next P s₀ s' := by
  induction xs generalizing s with
  | nil =>
      obtain rfl : s = s' := by simpa [play] using h
      exact hs
  | cons x xs ih =>
      simp only [play] at h
      split at h
      · rename_i s₁ hpx hnext
        exact ih (.step x hs (hp s x hpx) hnext) h
      · simp at h

/-- A run that can be played to a state that passes a test. -/
theorem Reach.exists_of_play {next : σ → l → Option σ} {p : σ → l → Bool} {P : σ → l → Prop}
    (xs : List l) (hp : ∀ s x, p s x = true → P s x) {s₀ : σ} {q : σ → Bool}
    (h : (play next p s₀ xs).any q = true) : ∃ s, Reach next P s₀ s ∧ q s = true := by
  cases hplay : play next p s₀ xs with
  | none => simp [hplay] at h
  | some s => exact ⟨s, Reach.init.trans_play hp hplay, by simpa [hplay] using h⟩

/-- Every sequence of steps from `s` that meet the condition `P` ends. -/
def Ends (next : σ → l → Option σ) (P : σ → l → Prop) : σ → Prop :=
  Acc fun s' s => ∃ x, P s x ∧ next s x = some s'

/-- Steps that keep an invariant and decrease a measure come to an end. -/
theorem ends_of_lt {β : Type} [Preorder β] [WellFoundedLT β] {next : σ → l → Option σ}
    {P : σ → l → Prop} {I : σ → Prop} {m : σ → β}
    (hstep : ∀ s x s', I s → P s x → next s x = some s' → I s' ∧ m s' < m s) {s : σ} (hs : I s) :
    Ends next P s := by
  induction hm : m s using WellFoundedLT.induction generalizing s with
  | _ k ih =>
      refine Acc.intro s fun s' ⟨x, hP, hnext⟩ => ?_
      obtain ⟨hs', hlt⟩ := hstep s x s' hs hP hnext
      exact ih (m s') (hm ▸ hlt) hs' rfl

/-- Where every sequence of steps ends, some state without a further step is reached. -/
theorem Ends.exists_stuck {next : σ → l → Option σ} {P : σ → l → Prop} {s₀ s : σ} (h : Ends next P s)
    (hs : Reach next P s₀ s) : ∃ s', Reach next P s₀ s' ∧ ∀ x, P s' x → next s' x = none := by
  induction h with
  | intro s _ ih =>
      by_cases hstuck : ∀ x, P s x → next s x = none
      · exact ⟨s, hs, hstuck⟩
      · push Not at hstuck
        obtain ⟨x, hP, hnext⟩ := hstuck
        obtain ⟨s', hs'⟩ := Option.ne_none_iff_exists'.1 hnext
        exact ih s' ⟨x, hP, hs'⟩ (.step x hs hP hs')

theorem Ends.mono {next : σ → l → Option σ} {P Q : σ → l → Prop} (hPQ : ∀ s x, P s x → Q s x) {s : σ}
    (h : Ends next Q s) : Ends next P s := by
  induction h with
  | intro s _ ih => exact Acc.intro s fun s' ⟨x, hP, hnext⟩ => ih s' ⟨x, hPQ s x hP, hnext⟩

/-- What can be played in one step or more. -/
theorem transGen_of_play {next : σ → l → Option σ} {p : σ → l → Bool} {P : σ → l → Prop}
    (hp : ∀ s x, p s x = true → P s x) {s s' : σ} {x : l} {xs : List l}
    (hplay : play next p s (x :: xs) = some s') :
    Relation.TransGen (fun s' s => ∃ x, P s x ∧ next s x = some s') s' s := by
  induction xs generalizing s x with
  | nil =>
      simp only [play] at hplay
      split at hplay
      · rename_i s₁ hpx hnext
        obtain rfl : s₁ = s' := by simpa using hplay
        exact .single ⟨x, hp s x hpx, hnext⟩
      · simp at hplay
  | cons y xs ih =>
      rw [play] at hplay
      split at hplay
      · rename_i s₁ hpx hnext
        have hstep : ∃ x, P s x ∧ next s x = some s₁ := ⟨x, hp s x hpx, hnext⟩
        exact (ih hplay).tail hstep
      · simp at hplay

/-- States from which one can always play on to another such state do not come to an end. -/
theorem not_ends_of_play {next : σ → l → Option σ} {p : σ → l → Bool} {P : σ → l → Prop}
    (hp : ∀ s x, p s x = true → P s x) {S : σ → Prop}
    (hS : ∀ s, S s → ∃ x xs s', play next p s (x :: xs) = some s' ∧ S s') {s : σ} (hs : S s) :
    ¬ Ends next P s := by
  intro h
  have htrans := Acc.transGen h
  induction htrans with
  | intro s _ ih =>
      obtain ⟨x, xs, s', hplay, hs'⟩ := hS s hs
      have hgen := transGen_of_play hp hplay
      exact ih s' hgen hs' (Acc.inv_of_transGen h hgen)

end runs

/-! ### Parties -/

section parties

variable {α : Type}

/-- A list of parties of which one has moved: the one, or another as before. -/
theorem set_cases {ps : List α} {i j : ℕ} {p q : α} (h : (ps.set i p)[j]? = some q) :
    (j = i ∧ q = p) ∨ (j ≠ i ∧ ps[j]? = some q) := by
  rw [List.getElem?_set] at h
  split at h
  case isTrue hij =>
    split at h
    case isTrue => exact .inl ⟨hij.symm, (Option.some_inj.1 h).symm⟩
    case isFalse => simp at h
  case isFalse hij => exact .inr ⟨fun he => hij he.symm, h⟩

/-- A list of parties with a new one: one as before, or the new one. -/
theorem concat_cases {ps : List α} {j : ℕ} {p q : α} (h : (ps ++ [p])[j]? = some q) :
    ps[j]? = some q ∨ q = p := by
  rcases lt_or_ge j ps.length with hlt | hge
  · exact .inl (by rwa [List.getElem?_append_left hlt] at h)
  · rw [List.getElem?_append_right hge] at h
    exact .inr (by simpa using List.mem_of_getElem? h)

/-- Every value of `f` belongs to one party only. -/
def Once {β : Type} (f : α → Option β) (ps : List α) : Prop :=
  ∀ (i j : ℕ) (p q : α) (b : β), ps[i]? = some p → ps[j]? = some q → f p = some b → f q = some b → i = j

/-- A party that has moved takes a value that no other has. -/
theorem Once.set {β : Type} {f : α → Option β} {ps : List α} (h : Once f ps) {i : ℕ} {p' : α}
    (hnew : ∀ b, f p' = some b → ∀ j q, j ≠ i → ps[j]? = some q → f q ≠ some b) :
    Once f (ps.set i p') := by
  intro j j' q q' b hj hj' hq hq'
  rcases set_cases hj with ⟨rfl, rfl⟩ | ⟨hne, hold⟩
  · rcases set_cases hj' with ⟨rfl, rfl⟩ | ⟨hne', hold'⟩
    · rfl
    · exact absurd hq' (hnew b hq j' q' hne' hold')
  · rcases set_cases hj' with ⟨rfl, rfl⟩ | ⟨-, hold'⟩
    · exact absurd hq (hnew b hq' j q hne hold)
    · exact h j j' q q' b hold hold' hq hq'

/-- A new party that has no value. -/
theorem Once.concat {β : Type} {f : α → Option β} {ps : List α} (h : Once f ps) {p : α}
    (hp : f p = none) : Once f (ps ++ [p]) := by
  intro j j' q q' b hj hj' hq hq'
  have hold : ∀ {j : ℕ} {q : α}, (ps ++ [p])[j]? = some q → f q = some b → ps[j]? = some q := by
    intro j q hj hq
    rcases concat_cases hj with hj | rfl
    · exact hj
    · simp [hp] at hq
  exact h j j' q q' b (hold hj hq) (hold hj' hq') hq hq'

/-- The sum over the parties when one has moved. -/
theorem sum_set {M : Type} [AddCommGroup M] (w : α → M) {ps : List α} {i : ℕ} {p : α}
    (h : ps[i]? = some p) (p' : α) :
    ((ps.set i p').map w).sum = (ps.map w).sum - w p + w p' := by
  induction ps generalizing i with
  | nil => simp at h
  | cons q ps ih =>
      cases i with
      | zero =>
          obtain rfl : q = p := by simpa using h
          simp only [List.set_cons_zero, List.map_cons, List.sum_cons]
          abel
      | succ i =>
          simp only [List.set_cons_succ, List.map_cons, List.sum_cons, ih (i := i) (by simpa using h)]
          abel

end parties

/-! ### Threads -/

section threads

variable {α : Type}

/-- The weight of the actions of a thread. -/
def weigh (w : α → ℕ) (k : List α) : ℕ := (k.map w).sum

/-- The weight of the actions of all threads. -/
def weight (w : α → ℕ) (ts : List (List α)) : ℕ := (ts.map (weigh w)).sum

@[simp] theorem weigh_nil (w : α → ℕ) : weigh w [] = 0 := rfl

@[simp] theorem weigh_cons (w : α → ℕ) (a : α) (k : List α) : weigh w (a :: k) = w a + weigh w k := by
  simp [weigh]

@[simp] theorem weigh_append (w : α → ℕ) (k k' : List α) :
    weigh w (k ++ k') = weigh w k + weigh w k' := by
  simp [weigh]

theorem weigh_eq_zero {w : α → ℕ} {k : List α} (h : ∀ a ∈ k, w a = 0) : weigh w k = 0 := by
  refine List.sum_eq_zero fun m hm => ?_
  obtain ⟨a, ha, rfl⟩ := List.mem_map.1 hm
  exact h a ha

theorem weigh_map {β : Type} (w : α → ℕ) (f : β → α) (k : List β) :
    weigh w (k.map f) = (k.map fun b => w (f b)).sum := by
  simp [weigh, Function.comp_def]

@[simp] theorem weight_nil (w : α → ℕ) : weight w [] = 0 := rfl

/-- Starting a thread. -/
@[simp] theorem weight_concat (w : α → ℕ) (ts : List (List α)) (k : List α) :
    weight w (ts ++ [k]) = weight w ts + weigh w k := by
  simp [weight]

/-- **Running a thread**: its old actions leave the weight and its new ones enter it. -/
theorem weight_set (w : α → ℕ) {ts : List (List α)} {i : ℕ} {k : List α} (h : ts[i]? = some k)
    (k' : List α) : weight w (ts.set i k') + weigh w k = weight w ts + weigh w k' := by
  induction ts generalizing i with
  | nil => simp at h
  | cons t ts ih =>
      cases i with
      | zero =>
          obtain rfl : t = k := by simpa using h
          simp only [weight, List.set_cons_zero, List.map_cons, List.sum_cons]
          omega
      | succ i =>
          have := ih (i := i) (by simpa using h)
          simp only [weight, List.set_cons_succ, List.map_cons, List.sum_cons] at this ⊢
          omega

/-- Running one action, which puts the actions `m` in its place. -/
theorem weight_run (w : α → ℕ) {ts : List (List α)} {i : ℕ} {a : α} {k : List α}
    (h : ts[i]? = some (a :: k)) (m : List α) :
    weight w (ts.set i (m ++ k)) + w a = weight w ts + weigh w m := by
  have := weight_set w h (m ++ k)
  rw [weigh_append, weigh_cons] at this
  omega

/-- An action without weight that is replaced by such actions leaves the weight alone. -/
theorem weight_run_eq {w : α → ℕ} {ts : List (List α)} {i : ℕ} {a : α} {k : List α}
    (h : ts[i]? = some (a :: k)) {m : List α} (ha : w a = 0) (hm : weigh w m = 0) :
    weight w (ts.set i (m ++ k)) = weight w ts := by
  have := weight_run w h m
  omega

/-- Where one weight vanishes so does another that is carried by the same actions. -/
theorem weight_eq_zero_of {w w' : α → ℕ} (hw : ∀ a, w a = 0 → w' a = 0) {ts : List (List α)}
    (h : weight w ts = 0) : weight w' ts = 0 := by
  refine List.sum_eq_zero fun m hm => ?_
  obtain ⟨k, hk, rfl⟩ := List.mem_map.1 hm
  refine weigh_eq_zero fun a ha => hw a ?_
  have hz : weigh w k = 0 := List.sum_eq_zero_iff.1 h _ (List.mem_map.2 ⟨k, hk, rfl⟩)
  exact List.sum_eq_zero_iff.1 hz _ (List.mem_map.2 ⟨a, ha, rfl⟩)

/-- A thread's weight is part of the total. -/
theorem weigh_le_weight (w : α → ℕ) {ts : List (List α)} {k : List α} (h : k ∈ ts) :
    weigh w k ≤ weight w ts :=
  List.single_le_sum (fun _ _ => Nat.zero_le _) _ (List.mem_map.2 ⟨k, h, rfl⟩)

/-- The weight of an action that is about to run. -/
theorem weight_pos {w : α → ℕ} {ts : List (List α)} {i : ℕ} {a : α} {k : List α}
    (h : ts[i]? = some (a :: k)) (ha : 0 < w a) : 0 < weight w ts := by
  have hle := weigh_le_weight w (List.mem_of_getElem? h)
  rw [weigh_cons] at hle
  omega

/-- The actions still to come, in no order. -/
def pending (ts : List (List α)) : Multiset α := (ts.flatten : List α)

theorem mem_pending {ts : List (List α)} {a : α} : a ∈ pending ts ↔ ∃ k ∈ ts, a ∈ k := by
  simp [pending]

@[simp] theorem pending_concat (ts : List (List α)) (k : List α) :
    pending (ts ++ [k]) = pending ts + (k : Multiset α) := by
  simp [pending]

/-- Running one action, which puts the actions `m` in its place. -/
theorem pending_run {ts : List (List α)} {i : ℕ} {a : α} {k : List α} (h : ts[i]? = some (a :: k)) :
    ∃ R : Multiset α, pending ts = a ::ₘ R ∧
      ∀ m : List α, pending (ts.set i (m ++ k)) = (m : Multiset α) + R := by
  obtain ⟨hi, hk⟩ := List.getElem?_eq_some_iff.1 h
  have hts : ts = ts.take i ++ (a :: k) :: ts.drop (i + 1) := by
    rw [← hk, List.getElem_cons_drop, List.take_append_drop]
  refine ⟨((ts.take i).flatten ++ k ++ (ts.drop (i + 1)).flatten : List α), ?_, fun m => ?_⟩
  · rw [pending, Multiset.cons_coe, Multiset.coe_eq_coe]
    nth_rewrite 1 [hts]
    rw [List.flatten_append, List.flatten_cons, List.append_assoc]
    exact List.perm_middle
  · rw [pending, Multiset.coe_add, Multiset.coe_eq_coe, List.set_eq_take_append_cons_drop, if_pos hi,
      List.flatten_append, List.flatten_cons]
    simp only [List.append_assoc]
    exact List.perm_append_comm_assoc _ _ _

/-- As long as there are actions to come, some thread can run. -/
theorem exists_run_of_pending {ts : List (List α)} (h : pending ts ≠ 0) :
    ∃ (i : ℕ) (a : α) (k : List α), ts[i]? = some (a :: k) := by
  obtain ⟨a, ha⟩ := Multiset.exists_mem_of_ne_zero h
  obtain ⟨t, ht, hat⟩ := mem_pending.1 ha
  obtain ⟨i, hi⟩ := List.mem_iff_getElem?.1 ht
  cases t with
  | nil => simp at hat
  | cons b k => exact ⟨i, b, k, hi⟩

end threads

end Interleave
