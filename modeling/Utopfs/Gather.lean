/-
**Collecting from several parties.**

Each of `n` parties reports items, in any order and perhaps several at a time, and then ends, with
success or without.  A shared counter says how many have not ended, and a shared flag whether one has
ended with success.  A report is an action with a state of its own, and the end is two actions: the flag
is set, and the party is counted.

* `Gather.Act` — the actions, and `Gather.start` those of all parties;
* `Gather.Act.Ready`, `Gather.Act.ready` — a party ends after its reports;
* `Gather.Books` — what the counter and the flag have to do with the actions still to come;
* `Gather.Books.start`, `Gather.Books.item`, `Gather.Books.drop`, `Gather.Books.finish`,
  `Gather.Books.count` — the rules;
* `Gather.Books.eq_zero`, `Gather.Books.succeeded_iff` — when the counter is at zero all parties have
  ended and reported everything;
* `Gather.exists_ready` — some action can always run.

Nothing here mentions a particular program.
-/

import Mathlib.Algebra.BigOperators.Group.Multiset.Basic
import Mathlib.Data.Multiset.Filter
import Mathlib.Tactic

set_option relaxedAutoImplicit false
set_option autoImplicit false

namespace Gather

variable {n : ℕ} {β : Type}

/-! ### The actions -/

/-- What the parties still have to do: a report, an end, and the count of an end. -/
inductive Act (n : ℕ) (β : Type)
  | item (c : Fin n) (b : β)
  | finish (c : Fin n) (ok : Bool)
  | count (c : Fin n)

/-- A report of the party. -/
def Act.isItemOf (c : Fin n) : Act n β → Bool
  | .item c' _ => c' = c
  | _ => false

/-- The end of the party, up to its count. -/
def Act.ends (c : Fin n) : Act n β → ℕ
  | .item _ _ => 0
  | .finish c' _ | .count c' => if c' = c then 1 else 0

/-- The end of a party. -/
def Act.isEnd : Act n β → ℕ
  | .item _ _ => 0
  | _ => 1

/-- The actions of all parties. -/
def start (items : Fin n → List β) (ok : Fin n → Bool) : List (Act n β) :=
  (List.finRange n).flatMap fun c => (items c).map (.item c) ++ [.finish c (ok c)]

/-- A party ends when none of its reports is to come. -/
def Act.Ready (T : Multiset (Act n β)) : Act n β → Prop
  | .finish c _ => ∀ b, .item c b ∉ T
  | _ => True

/-- A test for it. -/
def Act.ready (l : List (Act n β)) : Act n β → Bool
  | .finish c _ => l.all fun a => !a.isItemOf c
  | _ => true

theorem ready_iff {l : List (Act n β)} {a : Act n β} : a.ready l = true ↔ a.Ready (l : Multiset (Act n β)) := by
  cases a with
  | item c b => exact iff_of_true rfl trivial
  | count c => exact iff_of_true rfl trivial
  | finish c o =>
      simp only [Act.ready, List.all_eq_true, Act.Ready, Multiset.mem_coe]
      constructor
      · intro h b hb
        simpa [Act.isItemOf] using h _ hb
      · intro h a ha
        cases a with
        | item c' b =>
            simp only [Act.isItemOf, Bool.not_eq_true', decide_eq_false_iff_not]
            rintro rfl
            exact h b ha
        | finish c' o => rfl
        | count c' => rfl

/-! ### The books -/

/-- **The counter, the flag and the parties that have been counted are right.** -/
structure Books (ok : Fin n → Bool) (T : Multiset (Act n β)) (outstanding : ℤ) (succeeded : Bool)
    (ended : List (Fin n)) : Prop where
  outstanding : outstanding = (T.map Act.isEnd).sum
  once : ∀ c, (T.map (Act.ends c)).sum + ended.count c = 1
  late : ∀ c, .count c ∈ T ∨ c ∈ ended → ∀ b, .item c b ∉ T
  outcome : ∀ c o, .finish c o ∈ T → o = ok c
  succeeded : succeeded = true ↔ ∃ c, ok c = true ∧ ∀ o, .finish c o ∉ T

variable {ok : Fin n → Bool} {T R : Multiset (Act n β)} {outstanding : ℤ} {succeeded : Bool}
  {ended : List (Fin n)}

theorem mem_start {items : Fin n → List β} {a : Act n β} : a ∈ start items ok ↔
    (∃ c, ∃ b ∈ items c, a = .item c b) ∨ ∃ c, a = .finish c (ok c) := by
  simp only [start, List.mem_flatMap, List.mem_finRange, true_and, List.mem_append, List.mem_map,
    List.mem_singleton, exists_or]
  refine or_congr_left ?_
  constructor
  · rintro ⟨c, b, hb, rfl⟩
    exact ⟨c, b, hb, rfl⟩
  · rintro ⟨c, b, hb, rfl⟩
    exact ⟨c, b, hb, rfl⟩

/-- A weight of the actions, summed party by party. -/
theorem sum_start {M : Type} [AddCommMonoid M] (items : Fin n → List β) (w : Act n β → M) :
    ((start items ok).map w).sum = ((List.finRange n).map fun c =>
      ((items c).map fun b => w (.item c b)).sum + w (.finish c (ok c))).sum := by
  simp only [start, List.flatMap_def, List.map_flatten, List.sum_flatten, List.map_map]
  refine congrArg List.sum (List.map_congr_left fun c _ => ?_)
  simp [Function.comp_def]

/-- A weight that only the ends have. -/
theorem sum_start_ends (items : Fin n → List β) {w : Act n β → ℕ} (hw : ∀ c b, w (.item c b) = 0) :
    ((start items ok).map w).sum = ((List.finRange n).map fun c => w (.finish c (ok c))).sum := by
  rw [sum_start]
  simp [hw]

/-- At the start. -/
theorem Books.start (items : Fin n → List β) (ok : Fin n → Bool) :
    Books ok (Gather.start items ok : Multiset (Act n β)) n false [] := by
  constructor
  case outstanding =>
    rw [Multiset.map_coe, Multiset.sum_coe, sum_start_ends items fun _ _ => rfl]
    simp [Act.isEnd]
  case once =>
    intro c
    rw [Multiset.map_coe, Multiset.sum_coe, sum_start_ends items fun _ _ => rfl]
    rw [← Fin.sum_univ_def]
    simp [Act.ends]
  case late =>
    rintro c (hc | hc)
    · rcases mem_start.1 hc with ⟨_, _, _, h⟩ | ⟨_, h⟩
      · simp at h
      · simp at h
    · simp at hc
  case outcome =>
    intro c o ho
    rcases mem_start.1 ho with ⟨_, _, _, h⟩ | ⟨c', h⟩
    · simp at h
    · obtain ⟨rfl, rfl⟩ := Act.finish.inj h
      rfl
  case succeeded =>
    simp only [Bool.false_eq_true, false_iff, not_exists, not_and, not_forall, not_not]
    exact fun c _ => ⟨ok c, mem_start.2 (.inr ⟨c, rfl⟩)⟩

/-- A report that goes on. -/
theorem Books.item {c : Fin n} {b : β} (b' : β)
    (h : Books ok (.item c b ::ₘ R) outstanding succeeded ended) :
    Books ok (.item c b' ::ₘ R) outstanding succeeded ended := by
  constructor
  case outstanding => simpa [Act.isEnd] using h.outstanding
  case once => simpa [Act.ends] using h.once
  case late =>
    intro c' hc' b₁ hb₁
    have hlate := h.late c' (by simpa using hc')
    rcases Multiset.mem_cons.1 hb₁ with heq | hb₁
    · obtain ⟨rfl, rfl⟩ := Act.item.inj heq
      exact hlate b (Multiset.mem_cons_self _ _)
    · exact hlate b₁ (Multiset.mem_cons_of_mem hb₁)
  case outcome => simpa using h.outcome
  case succeeded => simpa using h.succeeded

/-- A report that is over. -/
theorem Books.drop {c : Fin n} {b : β} (h : Books ok (.item c b ::ₘ R) outstanding succeeded ended) :
    Books ok R outstanding succeeded ended := by
  constructor
  case outstanding => simpa [Act.isEnd] using h.outstanding
  case once => simpa [Act.ends] using h.once
  case late =>
    intro c' hc' b₁ hb₁
    exact h.late c' (by simpa using hc') b₁ (Multiset.mem_cons_of_mem hb₁)
  case outcome => simpa using h.outcome
  case succeeded => simpa using h.succeeded

/-- No other end of a party whose end is to come. -/
theorem Books.ends_eq_zero {c : Fin n} {a : Act n β}
    (h : Books ok (a ::ₘ R) outstanding succeeded ended) (ha : a.ends c = 1) :
    (R.map (Act.ends c)).sum = 0 ∧ c ∉ ended := by
  have honce := h.once c
  rw [Multiset.map_cons, Multiset.sum_cons, ha] at honce
  exact ⟨by omega, fun hc => by have := List.count_pos_iff.2 hc; omega⟩

theorem notMem_of_ends {c : Fin n} (h : (R.map (Act.ends c)).sum = 0) {a : Act n β}
    (ha : a.ends c = 1) : a ∉ R := by
  intro hmem
  have hle := Multiset.single_le_sum (fun _ _ => Nat.zero_le _) _ (Multiset.mem_map_of_mem (Act.ends c) hmem)
  omega

/-- A party ends: the flag. -/
theorem Books.finish {c : Fin n} {o : Bool}
    (h : Books ok (.finish c o ::ₘ R) outstanding succeeded ended) (hready : ∀ b, .item c b ∉ R) :
    Books ok (.count c ::ₘ R) outstanding (succeeded || o) ended := by
  obtain ⟨hzero, hc⟩ := h.ends_eq_zero (c := c) (by simp [Act.ends])
  have hno : ∀ o', .finish c o' ∉ R := fun o' => notMem_of_ends hzero (by simp [Act.ends])
  have ho := h.outcome c o (Multiset.mem_cons_self _ _)
  constructor
  case outstanding => simpa [Act.isEnd] using h.outstanding
  case once => simpa [Act.ends] using h.once
  case late =>
    intro c' hc' b hb
    have hmem : .item c' b ∈ R := by simpa using hb
    rcases hc' with hc' | hc'
    · rcases Multiset.mem_cons.1 hc' with heq | hc'
      · exact hready b (Act.count.inj heq ▸ hmem)
      · exact h.late c' (.inl (Multiset.mem_cons_of_mem hc')) b (Multiset.mem_cons_of_mem hmem)
    · exact h.late c' (.inr hc') b (Multiset.mem_cons_of_mem hmem)
  case outcome =>
    intro c' o' ho'
    exact h.outcome c' o' (Multiset.mem_cons_of_mem (by simpa using ho'))
  case succeeded =>
    rw [Bool.or_eq_true, h.succeeded, ho]
    constructor
    · rintro (⟨c', hok, hno'⟩ | hok)
      · exact ⟨c', hok, fun o' ho' => hno' o' (Multiset.mem_cons_of_mem (by simpa using ho'))⟩
      · exact ⟨c, hok, fun o' ho' => hno o' (by simpa using ho')⟩
    · rintro ⟨c', hok, hno'⟩
      by_cases hcc : c' = c
      · exact .inr (hcc ▸ hok)
      · refine .inl ⟨c', hok, fun o' ho' => ?_⟩
        rcases Multiset.mem_cons.1 ho' with heq | ho'
        · exact hcc (Act.finish.inj heq).1
        · exact hno' o' (Multiset.mem_cons_of_mem ho')

/-- A party is counted. -/
theorem Books.count {c : Fin n} (h : Books ok (.count c ::ₘ R) outstanding succeeded ended) :
    Books ok R (outstanding - 1) succeeded (ended ++ [c]) := by
  constructor
  case outstanding =>
    rw [h.outstanding]
    simp [Act.isEnd]
  case once =>
    intro c'
    have honce := h.once c'
    rw [Multiset.map_cons, Multiset.sum_cons] at honce
    rw [List.count_append, List.count_singleton]
    simp only [Act.ends, beq_iff_eq] at honce ⊢
    omega
  case late =>
    intro c' hc' b hb
    refine h.late c' ?_ b (Multiset.mem_cons_of_mem hb)
    rcases hc' with hc' | hc'
    · exact .inl (Multiset.mem_cons_of_mem hc')
    · rcases List.mem_append.1 hc' with hc' | hc'
      · exact .inr hc'
      · exact .inl (by rw [List.mem_singleton.1 hc']; exact Multiset.mem_cons_self _ _)
  case outcome => exact fun c' o ho => h.outcome c' o (Multiset.mem_cons_of_mem ho)
  case succeeded => simpa using h.succeeded

/-- A party that is being counted is one of those that count. -/
theorem Books.pos {c : Fin n} (h : Books ok (.count c ::ₘ R) outstanding succeeded ended) :
    0 < outstanding := by
  have hout := h.outstanding
  have hone : Act.isEnd (.count c : Act n β) = 1 := rfl
  rw [Multiset.map_cons, Multiset.sum_cons, hone] at hout
  omega

/-- **When the counter is at zero, all parties have ended and reported everything.** -/
theorem Books.eq_zero (h : Books ok T 0 succeeded ended) : T = 0 ∧ ∀ c, c ∈ ended := by
  have hsum : (T.map Act.isEnd).sum = 0 := by
    have := h.outstanding
    omega
  have hends : ∀ a ∈ T, a.isEnd = 0 := by
    intro a ha
    have hle := Multiset.single_le_sum (fun _ _ => Nat.zero_le _) _ (Multiset.mem_map_of_mem Act.isEnd ha)
    omega
  have hitem : ∀ a ∈ T, ∃ c b, a = .item c b := by
    intro a ha
    have hz := hends a ha
    cases a with
    | item c b => exact ⟨c, b, rfl⟩
    | finish c o => simp [Act.isEnd] at hz
    | count c => simp [Act.isEnd] at hz
  have hall : ∀ c, c ∈ ended := by
    intro c
    have hzero : (T.map (Act.ends c)).sum = 0 := by
      refine Multiset.sum_eq_zero fun m hm => ?_
      obtain ⟨a, ha, rfl⟩ := Multiset.mem_map.1 hm
      obtain ⟨c', b, rfl⟩ := hitem a ha
      rfl
    have honce := h.once c
    exact List.count_pos_iff.1 (by omega)
  refine ⟨Multiset.eq_zero_of_forall_notMem fun a ha => ?_, hall⟩
  obtain ⟨c, b, rfl⟩ := hitem a ha
  exact h.late c (.inr (hall c)) b ha

/-- The flag, when the counter is at zero. -/
theorem Books.succeeded_iff (h : Books ok T 0 succeeded ended) :
    succeeded = true ↔ ∃ c, ok c = true := by
  rw [h.succeeded, h.eq_zero.1]
  simp

/-- **Some action can always run.** -/
theorem exists_ready (hT : T ≠ 0) : ∃ a ∈ T, a.Ready T := by
  obtain ⟨a, ha⟩ := Multiset.exists_mem_of_ne_zero hT
  by_cases hr : a.Ready T
  · exact ⟨a, ha, hr⟩
  · cases a with
    | item c b => exact absurd trivial hr
    | count c => exact absurd trivial hr
    | finish c o =>
        simp only [Act.Ready, not_forall, not_not] at hr
        obtain ⟨b, hb⟩ := hr
        exact ⟨_, hb, trivial⟩

end Gather
