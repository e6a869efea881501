/-
**Lists ordered by time stamps.**

A list of the least recently used objects is kept in the order of use.  When it is saved, what
survives are the time stamps, and it is rebuilt by inserting the objects one after another into a list
sorted by these.  Objects of one time stamp come out in the order in which they were inserted.

* `Recency.insertBy`, `Recency.sortBy` — insertion behind the objects that are not newer, and the list
  rebuilt so;
* `Recency.sortBy_perm`, `Recency.sortBy_sorted` — it has the objects that were inserted, in the order
  of their time stamps;
* `Recency.sortBy_first`, `Recency.sortBy_last` — where the object inserted first, or last, ends up;
* `Recency.mem_before_moved` — moving an object to the front;
* `Recency.before_pivot`, `Recency.behind_pivot` — in a list that is ordered, newest first, an object
  with a time stamp of its own separates the newer objects from the older ones.

Nothing here mentions a particular program.
-/

import Mathlib.Data.List.Nodup
import Mathlib.Data.List.TakeWhile
import Mathlib.Order.Basic
import Mathlib.Order.Defs.LinearOrder
import Mathlib.Tactic

set_option relaxedAutoImplicit false
set_option autoImplicit false

namespace Recency

variable {α τ : Type} [LinearOrder τ]

/-! ### Rebuilding a list -/

/-- Insertion behind the objects that are not newer. -/
def insertBy (stamp : α → τ) (e : α) : List α → List α
  | [] => [e]
  | x :: l => if stamp e < stamp x then e :: x :: l else x :: insertBy stamp e l

/-- The objects in the order of their time stamps, oldest first. -/
def sortBy (stamp : α → τ) (es : List α) : List α :=
  es.foldl (fun l e => insertBy stamp e l) []

/-- **An object goes behind those that are not newer and in front of the newer ones.** -/
theorem insertBy_split (stamp : α → τ) (e : α) {l : List α}
    (h : l.Pairwise fun a b => stamp a ≤ stamp b) :
    ∃ A B, l = A ++ B ∧ insertBy stamp e l = A ++ e :: B ∧
      (∀ x ∈ A, stamp x ≤ stamp e) ∧ ∀ x ∈ B, stamp e < stamp x := by
  induction l with
  | nil => exact ⟨[], [], rfl, rfl, by simp, by simp⟩
  | cons x l ih =>
      obtain ⟨hx, hl⟩ := List.pairwise_cons.1 h
      unfold insertBy
      split
      case isTrue hlt =>
        refine ⟨[], x :: l, rfl, rfl, by simp, fun y hy => ?_⟩
        rcases List.mem_cons.1 hy with rfl | hy
        · exact hlt
        · exact hlt.trans_le (hx y hy)
      case isFalse hge =>
        obtain ⟨A, B, rfl, hins, hA, hB⟩ := ih hl
        refine ⟨x :: A, B, rfl, by rw [hins]; rfl, fun y hy => ?_, hB⟩
        rcases List.mem_cons.1 hy with rfl | hy
        · exact not_lt.1 hge
        · exact hA y hy

theorem insertBy_perm (stamp : α → τ) (e : α) (l : List α) :
    (insertBy stamp e l).Perm (e :: l) := by
  induction l with
  | nil => exact .refl _
  | cons x l ih =>
      unfold insertBy
      split
      · exact .refl _
      · exact (ih.cons x).trans (.swap e x l)

theorem insertBy_sorted (stamp : α → τ) (e : α) {l : List α}
    (h : l.Pairwise fun a b => stamp a ≤ stamp b) :
    (insertBy stamp e l).Pairwise fun a b => stamp a ≤ stamp b := by
  obtain ⟨A, B, rfl, hins, hA, hB⟩ := insertBy_split stamp e h
  rw [hins]
  obtain ⟨hAA, hBB, hAB⟩ := List.pairwise_append.1 h
  refine List.pairwise_append.2 ⟨hAA, List.pairwise_cons.2 ⟨fun x hx => (hB x hx).le, hBB⟩, ?_⟩
  intro a ha b hb
  rcases List.mem_cons.1 hb with rfl | hb
  · exact hA a ha
  · exact hAB a ha b hb

theorem foldl_insertBy_perm (stamp : α → τ) (es l : List α) :
    (es.foldl (fun l e => insertBy stamp e l) l).Perm (es ++ l) := by
  induction es generalizing l with
  | nil => exact .refl _
  | cons e es ih =>
      refine (ih (insertBy stamp e l)).trans ?_
      exact ((insertBy_perm stamp e l).append_left es).trans List.perm_middle

theorem sortBy_perm (stamp : α → τ) (es : List α) : (sortBy stamp es).Perm es := by
  simpa [sortBy] using foldl_insertBy_perm stamp es []

theorem foldl_insertBy_sorted (stamp : α → τ) (es : List α) {l : List α}
    (h : l.Pairwise fun a b => stamp a ≤ stamp b) :
    (es.foldl (fun l e => insertBy stamp e l) l).Pairwise fun a b => stamp a ≤ stamp b := by
  induction es generalizing l with
  | nil => exact h
  | cons e es ih => exact ih (insertBy_sorted stamp e h)

theorem sortBy_sorted (stamp : α → τ) (es : List α) :
    (sortBy stamp es).Pairwise fun a b => stamp a ≤ stamp b :=
  foldl_insertBy_sorted stamp es List.Pairwise.nil

/-- What is inserted after an object goes behind it unless it is older. -/
theorem insertBy_after (stamp : α → τ) (e m : α) (B : List α) :
    ∀ A : List α, (∀ x ∈ A, stamp x < stamp m) →
      ∃ A' B', insertBy stamp e (A ++ m :: B) = A' ++ m :: B' ∧ ∀ x ∈ A', stamp x < stamp m := by
  intro A
  induction A with
  | nil =>
      intro _
      by_cases hlt : stamp e < stamp m
      · exact ⟨[e], B, by simp [insertBy, hlt], by simpa using hlt⟩
      · exact ⟨[], insertBy stamp e B, by simp [insertBy, hlt], by simp⟩
  | cons a A ih =>
      intro hA
      have ha := hA a List.mem_cons_self
      by_cases hlt : stamp e < stamp a
      · refine ⟨e :: a :: A, B, by simp [insertBy, hlt], fun x hx => ?_⟩
        rcases List.mem_cons.1 hx with rfl | hx
        · exact hlt.trans ha
        · exact hA x hx
      · obtain ⟨A', B', hins, hA'⟩ := ih fun x hx => hA x (List.mem_cons_of_mem _ hx)
        refine ⟨a :: A', B', by simp [insertBy, hlt, hins], fun x hx => ?_⟩
        rcases List.mem_cons.1 hx with rfl | hx
        · exact ha
        · exact hA' x hx

/-- **The object that is inserted first** comes before all others of its time stamp. -/
theorem sortBy_first (stamp : α → τ) (m : α) (es : List α) :
    ∃ A B, sortBy stamp (m :: es) = A ++ m :: B ∧ ∀ x ∈ A, stamp x < stamp m := by
  have key : ∀ (es A B : List α), (∀ x ∈ A, stamp x < stamp m) →
      ∃ A' B', es.foldl (fun l e => insertBy stamp e l) (A ++ m :: B) = A' ++ m :: B' ∧
        ∀ x ∈ A', stamp x < stamp m := by
    intro es
    induction es with
    | nil => exact fun A B hA => ⟨A, B, rfl, hA⟩
    | cons e es ih =>
        intro A B hA
        obtain ⟨A₁, B₁, hins, hA₁⟩ := insertBy_after stamp e m B A hA
        rw [List.foldl_cons, hins]
        exact ih A₁ B₁ hA₁
  exact key es [] [] (by simp)

/-- **The object that is inserted last** comes after all others that are not newer. -/
theorem sortBy_last (stamp : α → τ) (es : List α) (m : α) :
    ∃ A B, sortBy stamp (es ++ [m]) = A ++ m :: B ∧ (A ++ B).Perm es ∧
      (∀ x ∈ A, stamp x ≤ stamp m) ∧ ∀ x ∈ B, stamp m < stamp x := by
  obtain ⟨A, B, hAB, hins, hA, hB⟩ := insertBy_split stamp m (sortBy_sorted stamp es)
  refine ⟨A, B, ?_, ?_, hA, hB⟩
  · rw [sortBy, List.foldl_append]
    exact hins
  · rw [← hAB]
    exact sortBy_perm stamp es

/-! ### The place of one object -/

section pivot

variable [DecidableEq α] {stamp : α → τ} {L : List α} {p : α}

/-- What is newer than an object is in front of it. -/
theorem mem_before_of_lt (hsort : L.Pairwise fun a b => stamp b ≤ stamp a) {a : α} (ha : a ∈ L)
    (hlt : stamp p < stamp a) : a ∈ L.takeWhile fun x => x ≠ p := by
  induction L with
  | nil => simp at ha
  | cons b L ih =>
      obtain ⟨hb, hsort⟩ := List.pairwise_cons.1 hsort
      have hne : a ≠ p := fun he => hlt.ne (by rw [he])
      rcases List.mem_cons.1 ha with rfl | haL
      · simp [hne]
      · have hbp : b ≠ p := fun he => absurd (hb a haL) (not_le.2 (he ▸ hlt))
        rw [List.takeWhile_cons_of_pos (by simpa using hbp)]
        exact List.mem_cons_of_mem _ (ih hsort haL)

/-- In front of an object whose time stamp is its own are the newer objects. -/
theorem before_pivot (hsort : L.Pairwise fun a b => stamp b ≤ stamp a) (hp : p ∈ L)
    (hapart : ∀ a ∈ L, a ≠ p → stamp a ≠ stamp p) :
    L.takeWhile (fun a => a ≠ p) = L.filter fun a => stamp p < stamp a := by
  induction L with
  | nil => simp at hp
  | cons a L ih =>
      obtain ⟨ha, hsort⟩ := List.pairwise_cons.1 hsort
      by_cases hap : a = p
      · -- Nothing behind the pivot is newer.
        subst hap
        have hnil : L.filter (fun b => decide (stamp a < stamp b)) = [] :=
          List.filter_eq_nil_iff.2 fun b hb => by simpa using ha b hb
        simp [hnil]
      · have hpL : p ∈ L := (List.mem_cons.1 hp).resolve_left (Ne.symm hap)
        have hlt : stamp p < stamp a :=
          lt_of_le_of_ne (ha p hpL) (Ne.symm (hapart a List.mem_cons_self hap))
        have := ih hsort hpL fun b hb => hapart b (List.mem_cons_of_mem _ hb)
        simpa [hap, hlt] using this

/-- Behind it are the older ones. -/
theorem behind_pivot (hsort : L.Pairwise fun a b => stamp b ≤ stamp a) (hnd : L.Nodup) (hp : p ∈ L)
    (hapart : ∀ a ∈ L, a ≠ p → stamp a ≠ stamp p) :
    (L.dropWhile fun a => a ≠ p).drop 1 = L.filter fun a => stamp a < stamp p := by
  induction L with
  | nil => simp at hp
  | cons a L ih =>
      obtain ⟨ha, hsort⟩ := List.pairwise_cons.1 hsort
      obtain ⟨hout, hnd⟩ := List.nodup_cons.1 hnd
      by_cases hap : a = p
      · subst hap
        have hall : L.filter (fun b => decide (stamp b < stamp a)) = L := by
          refine List.filter_eq_self.2 fun b hb => ?_
          have hba : b ≠ a := fun he => hout (he ▸ hb)
          simpa using lt_of_le_of_ne (ha b hb) (hapart b (List.mem_cons_of_mem _ hb) hba)
        simp [hall]
      · have hpL : p ∈ L := (List.mem_cons.1 hp).resolve_left (Ne.symm hap)
        have hlt : ¬ stamp a < stamp p := not_lt.2 (ha p hpL)
        have := ih hsort hnd hpL fun b hb => hapart b (List.mem_cons_of_mem _ hb)
        simpa [hap, hlt] using this

/-- A list that does not have the object is all in front of it. -/
theorem no_pivot (h : p ∉ L) :
    L.takeWhile (fun a => a ≠ p) = L ∧ (L.dropWhile fun a => a ≠ p).drop 1 = [] := by
  have hall : ∀ a ∈ L, decide (a ≠ p) = true := fun a ha => by
    simpa using fun he : a = p => h (he ▸ ha)
  refine ⟨List.takeWhile_eq_self_iff.2 hall, ?_⟩
  rw [List.dropWhile_eq_nil_iff.2 hall, List.drop_nil]

/-- The two sides of an object that the list has once. -/
theorem sides_append {A B : List α} (hA : p ∉ A) :
    (A ++ p :: B).takeWhile (fun a => a ≠ p) = A ∧
      ((A ++ p :: B).dropWhile fun a => a ≠ p).drop 1 = B := by
  have hall : ∀ a ∈ A, decide (a ≠ p) = true := fun a ha => by
    simpa using fun he : a = p => hA (he ▸ ha)
  refine ⟨?_, ?_⟩
  · rw [List.takeWhile_append_of_pos hall]
    simp
  · rw [List.dropWhile_append_of_pos hall]
    simp

/-- Moving `n` to the front leaves what is in front of another object in front of it. -/
theorem mem_before_moved {n y m : α} (hy : n ≠ y) :
    m ∈ (n :: L.filter fun x => x ≠ n).takeWhile (fun x => x ≠ y) ↔
      m = n ∨ m ∈ L.takeWhile fun x => x ≠ y := by
  have key : ∀ L : List α, m = n ∨ m ∈ (L.filter fun x => x ≠ n).takeWhile (fun x => x ≠ y) ↔
      m = n ∨ m ∈ L.takeWhile fun x => x ≠ y := by
    intro L
    induction L with
    | nil => simp
    | cons a L ih =>
        by_cases han : a = n
        · subst han
          simpa [hy] using ih
        · by_cases hay : a = y
          · subst hay
            simp [han]
          · simp only [ne_eq, han, not_false_eq_true, decide_true, List.filter_cons_of_pos,
              List.takeWhile_cons_of_pos, hay, List.mem_cons]
            tauto
  rw [← key L]
  simp [hy]

/-- Dropping `n` leaves what is in front of another object in front of it. -/
theorem mem_before_dropped {n y m : α} (hm : m ≠ n) (hy : n ≠ y) :
    m ∈ (L.filter fun x => x ≠ n).takeWhile (fun x => x ≠ y) ↔ m ∈ L.takeWhile fun x => x ≠ y := by
  have hmoved := mem_before_moved (L := L) (m := m) hy
  rw [List.takeWhile_cons_of_pos (by simpa using hy), List.mem_cons] at hmoved
  simpa only [hm, false_or] using hmoved

/-- Renaming the objects of a list so that no other gets the name of `y`. -/
theorem before_map {β : Type*} [DecidableEq β] {f : α → β} {y : α} (hf : ∀ a ∈ L, f a = f y → a = y) :
    (L.map f).takeWhile (fun b => b ≠ f y) = (L.takeWhile fun a => a ≠ y).map f := by
  induction L with
  | nil => rfl
  | cons a L ih =>
      have ih := ih fun b hb => hf b (List.mem_cons_of_mem _ hb)
      by_cases hay : a = y
      · subst hay
        simp
      · have hfa : f a ≠ f y := fun h => hay (hf a List.mem_cons_self h)
        rw [List.map_cons, List.takeWhile_cons_of_pos (by simpa using hfa),
          List.takeWhile_cons_of_pos (by simpa using hay), ih, List.map_cons]

/-- What follows the object does not matter for what is in front of it. -/
theorem before_append {A B : List α} (hp : p ∈ A) :
    (A ++ B).takeWhile (fun x => x ≠ p) = A.takeWhile fun x => x ≠ p := by
  induction A with
  | nil => simp at hp
  | cons a A ih =>
      by_cases hap : a = p
      · subst hap
        simp
      · have hpA : p ∈ A := by simpa [Ne.symm hap] using hp
        simpa [hap] using ih hpA

/-- What is appended goes behind an object that the list has. -/
theorem behind_append {A B : List α} (hp : p ∈ A) :
    ((A ++ B).dropWhile fun x => x ≠ p).drop 1 = ((A.dropWhile fun x => x ≠ p).drop 1) ++ B := by
  induction A with
  | nil => simp at hp
  | cons a A ih =>
      by_cases hap : a = p
      · subst hap
        simp
      · have hpA : p ∈ A := by simpa [Ne.symm hap] using hp
        simpa [hap] using ih hpA

/-- An object of the list other than the pivot is on one side of it. -/
theorem takeWhile_append_dropWhile_perm (hp : p ∈ L) :
    L.Perm (p :: (L.takeWhile (fun x => x ≠ p) ++ (L.dropWhile fun x => x ≠ p).drop 1)) := by
  induction L with
  | nil => simp at hp
  | cons a L ih =>
      by_cases hap : a = p
      · subst hap
        simp
      · have hpL : p ∈ L := by simpa [Ne.symm hap] using hp
        rw [List.takeWhile_cons_of_pos (by simpa using hap), List.dropWhile_cons_of_pos (by simpa using hap)]
        exact ((ih hpL).cons a).trans (.swap p a _)

end pivot

end Recency
