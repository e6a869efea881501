/-
**The follow-fills of a request for the furthest head nodes.**

A follow-fill counts the traversals and the inserts that are out for it, and completes when there are
none.  This module gives the steps of `Utopfs/VBSHeadFurthest.lean` one by one, with the actions of all
threads in one multiset, and what all of them keep: the books of the follow-fills, and that the
children's graphs grow by edges that other children have.

Main definitions:

* `Furthest.Step` — one step;
* `Furthest.Books` — the counts of the follow-fills are right;
* `Furthest.openFills` — the follow-fills that are not complete;
* `Furthest.Grown` — the children's graphs are parts of the forest and have all edges they started
  with.

Main results:

* `Furthest.step_of_next` — every step is one of these;
* `Furthest.Books.step`, `Furthest.Grown.step` — what every step keeps.
-/

import Utopfs.VBSHeadFurthest

set_option relaxedAutoImplicit false
set_option autoImplicit false

namespace Utopfs

namespace Furthest

open Head Interleave

open VBS (others)

variable {n : ℕ}

/-! ### The steps -/

/-- One step.  The threads are known by the actions they have still to do. -/
inductive Step (hn : HeadNode) (s : State n) : State n → Prop
  | ask (c : Fin n) (R : Multiset (Act n)) (ts : List (List (Act n)))
      (hold : pending s.threads = .furthest c ::ₘ R) (hnew : pending ts = R) :
      Step hn s { s with asked := s.asked ++ [c], threads := ts }
  | answered (c : Fin n) (hc : c ∈ s.asked) : Step hn s (answer hn s c)
  | surveyed (R : Multiset (Act n)) (ts : List (List (Act n)))
      (hold : pending s.threads = .subComplete ::ₘ R)
      (hnew : pending ts = ((subComplete hn s).2 : Multiset (Act n)) + R) :
      Step hn s { (subComplete hn s).1 with threads := ts }
  | fill (seed : HeadNode) (c : Fin n) (R : Multiset (Act n)) (ts : List (List (Act n)))
      (hold : pending s.threads = .fill seed c ::ₘ R)
      (hnew : pending ts = ((others c).map (Act.follow s.nfill) : Multiset (Act n)) + R) :
      Step hn s { s with
        fills := Function.update s.fills s.nfill ⟨seed, c, (n : ℤ) - 1, false, 0⟩
        nfill := s.nfill + 1
        threads := ts }
  | follow (f : ℕ) (c : Fin n) (R : Multiset (Act n)) (ts : List (List (Act n)))
      (hold : pending s.threads = .follow f c ::ₘ R) (hnew : pending ts = R) :
      Step hn s { s with follows := s.follows ++ [(f, c)], threads := ts }
  | followed (f : ℕ) (c : Fin n) (ts : List (List (Act n))) (hc : (f, c) ∈ s.follows)
      (hnew : pending ts = .traverse f (found (s.graph c) (s.fills f).hn) ::ₘ pending s.threads) :
      Step hn s { s with follows := s.follows.erase (f, c), threads := ts }
  | edge (f : ℕ) (e : HeadEdge) (es : List HeadEdge) (R : Multiset (Act n))
      (ts : List (List (Act n))) (hold : pending s.threads = .traverse f (e :: es) ::ₘ R)
      (hnew : pending ts = .traverse f es ::ₘ R) :
      Step hn s { s.setFill f { s.fills f with fillsout := (s.fills f).fillsout + 1 } with
        inserts := s.inserts ++ [(f, e)]
        threads := ts }
  | traversed (f : ℕ) (R : Multiset (Act n)) (ts : List (List (Act n)))
      (hold : pending s.threads = .traverse f [] ::ₘ R)
      (hnew : pending ts = ((hetEnd s f).2 : Multiset (Act n)) + R) :
      Step hn s { (hetEnd s f).1 with threads := ts }
  | insert (f : ℕ) (e : HeadEdge) (ts : List (List (Act n))) (he : (f, e) ∈ s.inserts)
      (hnew : pending ts = .filled f ::ₘ pending s.threads) :
      Step hn s { s with
        graph := Function.update s.graph (s.fills f).targ (insertOrKeep (s.graph (s.fills f).targ) e)
        inserts := s.inserts.erase (f, e)
        threads := ts }
  | filled (f : ℕ) (R : Multiset (Act n)) (ts : List (List (Act n)))
      (hold : pending s.threads = .filled f ::ₘ R)
      (hnew : pending ts = ((heiEnd s f).2 : Multiset (Act n)) + R) :
      Step hn s { (heiEnd s f).1 with threads := ts }
  | completed (f : ℕ) (R : Multiset (Act n)) (ts : List (List (Act n)))
      (hold : pending s.threads = .fillComplete f ::ₘ R)
      (hnew : pending ts = ((hetComplete s).2 : Multiset (Act n)) + R) :
      Step hn s { (hetComplete s).1 with threads := ts }

/-- Every step is one of these. -/
theorem step_of_next {hn : HeadNode} {s s' : State n} {x : Label n} (h : next hn s x = some s') :
    Step hn s s' := by
  cases x with
  | furthest c =>
      simp only [next] at h
      split at h
      · rename_i hc
        obtain rfl := Option.some.inj h
        exact .answered c hc
      · simp at h
  | follow f c =>
      simp only [next] at h
      split at h
      · rename_i hc
        obtain rfl := Option.some.inj h
        exact .followed f c _ hc (by rw [pending_concat, add_comm]; rfl)
      · simp at h
  | insert f e =>
      simp only [next] at h
      split at h
      · rename_i he
        obtain rfl := Option.some.inj h
        exact .insert f e _ he (by rw [pending_concat, add_comm]; rfl)
      · simp at h
  | run i =>
      simp only [next] at h
      split at h
      · rename_i a k hts
        obtain rfl := Option.some.inj h
        obtain ⟨R, hold, hnew⟩ := pending_run hts
        cases a with
        | furthest c => exact .ask c R _ hold (by simpa [exec] using hnew [])
        | subComplete => exact .surveyed R _ hold (hnew _)
        | fill seed c => exact .fill seed c R _ hold (hnew _)
        | follow f c => exact .follow f c R _ hold (by simpa [exec] using hnew [])
        | traverse f es =>
            cases es with
            | nil => exact .traversed f R _ hold (hnew _)
            | cons e es => exact .edge f e es R _ hold (by simpa [exec] using hnew [.traverse f es])
        | filled f => exact .filled f R _ hold (hnew _)
        | fillComplete f => exact .completed f R _ hold (hnew _)
      · simp at h

/-! ### The books of the follow-fills -/

/-- The actions of a traversal that is out. -/
def Act.travels (f : ℕ) : Act n → ℕ
  | .follow f' _ => if f' = f then 1 else 0
  | .traverse f' _ => if f' = f then 1 else 0
  | _ => 0

/-- The end of a fill. -/
def Act.fills (f : ℕ) : Act n → ℕ
  | .filled f' => if f' = f then 1 else 0
  | _ => 0

/-- The end of a follow-fill. -/
def Act.completes (f : ℕ) : Act n → ℕ
  | .fillComplete f' => if f' = f then 1 else 0
  | _ => 0

/-- The traversals that are out for a follow-fill. -/
def travs (s : State n) (f : ℕ) : ℕ :=
  ((pending s.threads).map (Act.travels f)).sum + s.follows.countP (fun x => decide (x.1 = f))

/-- The fills that are out for a follow-fill. -/
def puts (s : State n) (f : ℕ) : ℕ :=
  ((pending s.threads).map (Act.fills f)).sum + s.inserts.countP (fun x => decide (x.1 = f))

/-- How often a follow-fill is about to complete. -/
def ends (s : State n) (f : ℕ) : ℕ := ((pending s.threads).map (Act.completes f)).sum

/-- The start of a follow-fill. -/
def Act.starts : Act n → ℕ
  | .fill _ _ => 1
  | _ => 0

/-- The follow-fills that have still to be started. -/
def toStart (s : State n) : ℕ := ((pending s.threads).map Act.starts).sum

/-- The follow-fills that are not complete. -/
def openFills (s : State n) : Finset ℕ :=
  (Finset.range s.nfill).filter fun f => 0 < travs s f + puts s f + ends s f

/-- The counts are right, and only a follow-fill that has nothing out completes. -/
structure Books (s : State n) : Prop where
  fresh : ∀ f, s.nfill ≤ f → travs s f = 0 ∧ puts s f = 0 ∧ ends s f = 0
  outstanding : ∀ f < s.nfill, (s.fills f).outstanding = travs s f
  fillsout : ∀ f < s.nfill, (s.fills f).fillsout = puts s f
  travdone : ∀ f < s.nfill, (s.fills f).travdone = true ↔ travs s f = 0
  once : ∀ f, ends s f = 0 ∨ ends s f = 1 ∧ travs s f = 0 ∧ puts s f = 0
  ffout : s.ffout = toStart s + (openFills s).card

section

variable {s s' : State n}

theorem mem_openFills {f : ℕ} :
    f ∈ openFills s ↔ f < s.nfill ∧ 0 < travs s f + puts s f + ends s f := by
  simp [openFills]

/-- A follow-fill that has something out has been started. -/
theorem Books.lt_nfill (h : Books s) {f : ℕ} (hf : 0 < travs s f + puts s f + ends s f) :
    f < s.nfill := by
  by_contra hge
  have := h.fresh f (by omega)
  omega

/-- A step that moves what is out from one place to another. -/
theorem Books.same (h : Books s) (hfills : s'.fills = s.fills) (hnfill : s'.nfill = s.nfill)
    (htravs : ∀ f, travs s' f = travs s f) (hputs : ∀ f, puts s' f = puts s f)
    (hends : ∀ f, ends s' f = ends s f) (hffout : s'.ffout + toStart s = s.ffout + toStart s') :
    Books s' where
  fresh f hf := by
    rw [htravs, hputs, hends]
    exact h.fresh f (hnfill ▸ hf)
  outstanding f hf := by
    rw [htravs, hfills]
    exact h.outstanding f (hnfill ▸ hf)
  fillsout f hf := by
    rw [hputs, hfills]
    exact h.fillsout f (hnfill ▸ hf)
  travdone f hf := by
    rw [htravs, hfills]
    exact h.travdone f (hnfill ▸ hf)
  once f := by
    rw [htravs, hputs, hends]
    exact h.once f
  ffout := by
    have hopen : openFills s' = openFills s := by
      ext f
      rw [mem_openFills, mem_openFills, hnfill, htravs, hputs, hends]
    have := h.ffout
    rw [hopen]
    omega

/-- A step that changes what is out for one follow-fill. -/
theorem Books.change (h : Books s) {f : ℕ} {r : FollowFill n} (hf : f < s.nfill)
    (hfills : s'.fills = Function.update s.fills f r) (hnfill : s'.nfill = s.nfill)
    (hother : ∀ g, g ≠ f → travs s' g = travs s g ∧ puts s' g = puts s g ∧ ends s' g = ends s g)
    (hout : r.outstanding = travs s' f) (hfill : r.fillsout = puts s' f)
    (hdone : r.travdone = true ↔ travs s' f = 0)
    (honce : ends s' f = 0 ∨ ends s' f = 1 ∧ travs s' f = 0 ∧ puts s' f = 0)
    (hopen : 0 < travs s f + puts s f + ends s f) (hopen' : 0 < travs s' f + puts s' f + ends s' f)
    (hffout : s'.ffout = s.ffout) (hstart : toStart s' = toStart s) : Books s' where
  fresh g hg := by
    have hne : g ≠ f := by omega
    rw [(hother g hne).1, (hother g hne).2.1, (hother g hne).2.2]
    exact h.fresh g (hnfill ▸ hg)
  outstanding g hg := by
    rw [hfills]
    rcases eq_or_ne g f with rfl | hne
    · rw [Function.update_self, hout]
    · rw [Function.update_of_ne hne, (hother g hne).1]
      exact h.outstanding g (hnfill ▸ hg)
  fillsout g hg := by
    rw [hfills]
    rcases eq_or_ne g f with rfl | hne
    · rw [Function.update_self, hfill]
    · rw [Function.update_of_ne hne, (hother g hne).2.1]
      exact h.fillsout g (hnfill ▸ hg)
  travdone g hg := by
    rw [hfills]
    rcases eq_or_ne g f with rfl | hne
    · rw [Function.update_self, hdone]
    · rw [Function.update_of_ne hne, (hother g hne).1]
      exact h.travdone g (hnfill ▸ hg)
  once g := by
    rcases eq_or_ne g f with rfl | hne
    · exact honce
    · rw [(hother g hne).1, (hother g hne).2.1, (hother g hne).2.2]
      exact h.once g
  ffout := by
    have hopen : openFills s' = openFills s := by
      ext g
      rw [mem_openFills, mem_openFills, hnfill]
      rcases eq_or_ne g f with rfl | hne
      · simp only [hopen, hopen']
      · rw [(hother g hne).1, (hother g hne).2.1, (hother g hne).2.2]
    rw [hopen, hffout, hstart]
    exact h.ffout

/-- A step that starts a follow-fill. -/
theorem Books.started (h : Books s) {r : FollowFill n}
    (hfills : s'.fills = Function.update s.fills s.nfill r) (hnfill : s'.nfill = s.nfill + 1)
    (hother : ∀ g, g ≠ s.nfill → travs s' g = travs s g)
    (hputs : ∀ g, puts s' g = puts s g) (hends : ∀ g, ends s' g = ends s g)
    (hout : r.outstanding = travs s' s.nfill) (hfill : r.fillsout = 0) (hdone : r.travdone = false)
    (hpos : 0 < travs s' s.nfill) (hffout : s'.ffout = s.ffout)
    (hstart : toStart s = toStart s' + 1) : Books s' where
  fresh g hg := by
    rw [hother g (by omega), hputs, hends]
    exact h.fresh g (by omega)
  outstanding g hg := by
    rw [hfills]
    rcases eq_or_ne g s.nfill with rfl | hne
    · rw [Function.update_self, hout]
    · rw [Function.update_of_ne hne, hother g hne]
      exact h.outstanding g (by omega)
  fillsout g hg := by
    rw [hfills, hputs]
    rcases eq_or_ne g s.nfill with rfl | hne
    · rw [Function.update_self, hfill, (h.fresh s.nfill le_rfl).2.1]
      rfl
    · rw [Function.update_of_ne hne]
      exact h.fillsout g (by omega)
  travdone g hg := by
    rw [hfills]
    rcases eq_or_ne g s.nfill with rfl | hne
    · rw [Function.update_self, hdone]
      simp only [Bool.false_eq_true, false_iff]
      omega
    · rw [Function.update_of_ne hne, hother g hne]
      exact h.travdone g (by omega)
  once g := by
    rw [hputs, hends]
    rcases eq_or_ne g s.nfill with rfl | hne
    · exact .inl (h.fresh s.nfill le_rfl).2.2
    · rw [hother g hne]
      exact h.once g
  ffout := by
    have hopen : openFills s' = insert s.nfill (openFills s) := by
      ext g
      rw [Finset.mem_insert, mem_openFills, mem_openFills, hputs, hends]
      rcases eq_or_ne g s.nfill with rfl | hne
      · have := hpos
        simp only [true_or, iff_true]
        omega
      · rw [hother g hne]
        simp only [hne, false_or]
        exact and_congr_left fun _ => by omega
    have := h.ffout
    rw [hopen, Finset.card_insert_of_notMem (by simp [mem_openFills])]
    omega

/-- A step that completes a follow-fill. -/
theorem Books.completed (h : Books s) {f : ℕ} (hfills : s'.fills = s.fills)
    (hnfill : s'.nfill = s.nfill) (htravs : ∀ g, travs s' g = travs s g)
    (hputs : ∀ g, puts s' g = puts s g) (hends : ∀ g, g ≠ f → ends s' g = ends s g)
    (hend : ends s f = ends s' f + 1) (hffout : s'.ffout = s.ffout - 1)
    (hstart : toStart s' = toStart s) : Books s' := by
  have honce := h.once f
  have hf : f < s.nfill := h.lt_nfill (by omega)
  constructor
  case fresh =>
    intro g hg
    have hne : g ≠ f := by omega
    rw [htravs, hputs, hends g hne]
    exact h.fresh g (by omega)
  case outstanding =>
    intro g hg
    rw [htravs, hfills]
    exact h.outstanding g (by omega)
  case fillsout =>
    intro g hg
    rw [hputs, hfills]
    exact h.fillsout g (by omega)
  case travdone =>
    intro g hg
    rw [htravs, hfills]
    exact h.travdone g (by omega)
  case once =>
    intro g
    rcases eq_or_ne g f with rfl | hne
    · exact .inl (by omega)
    · rw [htravs, hputs, hends g hne]
      exact h.once g
  case ffout =>
    have hopen : openFills s' = (openFills s).erase f := by
      ext g
      rw [Finset.mem_erase, mem_openFills, mem_openFills, htravs, hputs, hnfill]
      rcases eq_or_ne g f with rfl | hne
      · simp only [ne_eq, not_true_eq_false, false_and, iff_false]
        omega
      · rw [hends g hne]
        simp [hne]
    have hmem : f ∈ openFills s := mem_openFills.2 ⟨hf, by omega⟩
    have hcard := Finset.card_erase_add_one hmem
    have := h.ffout
    rw [hopen]
    omega

theorem length_others_add_one (c : Fin n) : (others c).length + 1 = n := by
  have herase : others c = (List.finRange n).erase c := by
    rw [(List.nodup_finRange n).erase_eq_filter, others]
    exact List.filter_congr fun c' _ => by simp [bne, beq_eq_decide]
  have hlen := List.length_erase_add_one (List.mem_finRange c)
  rw [herase, hlen, List.length_finRange]

/-- Taking out a follow or an insert of a follow-fill. -/
theorem countP_erase_fst {α : Type} [BEq α] [LawfulBEq α] {l : List (ℕ × α)} {f : ℕ} {a : α}
    (h : (f, a) ∈ l) (g : ℕ) :
    (l.erase (f, a)).countP (fun x => decide (x.1 = g)) + (if f = g then 1 else 0) =
      l.countP (fun x => decide (x.1 = g)) := by
  rw [(List.perm_cons_erase h).countP_eq, List.countP_cons]
  simp

/-- The traversals of a new follow-fill. -/
theorem sum_travels_follow (f g : ℕ) (l : List (Fin n)) :
    ((l.map (Act.follow f)).map (Act.travels g)).sum = if f = g then l.length else 0 := by
  induction l with
  | nil => simp
  | cons c l ih =>
      simp only [List.map_cons, List.sum_cons, ih, Act.travels, List.length_cons]
      split <;> omega

/-- What the end of a survey leaves alone. -/
theorem subComplete_fields (hn : HeadNode) (s : State n) :
    (subComplete hn s).1.fills = s.fills ∧ (subComplete hn s).1.nfill = s.nfill ∧
      (subComplete hn s).1.follows = s.follows ∧ (subComplete hn s).1.inserts = s.inserts ∧
      ((subComplete hn s).1.ffout = (subComplete hn s).2.length ∨
        (subComplete hn s).1.ffout = s.ffout ∧ (subComplete hn s).2 = []) ∧
      ∀ a ∈ (subComplete hn s).2, ∃ seed c, a = .fill seed c := by
  simp only [subComplete, hntComplete, directedFollowFill, fullFollowFill]
  split
  · simp
  · split
    · simp
    · split
      · simp only [List.length_map, List.mem_map, true_or, true_and, Prod.exists]
        rintro a ⟨c, seed, -, rfl⟩
        exact ⟨seed, c, rfl⟩
      · split
        · simp
        · simp

theorem subComplete_graph (hn : HeadNode) (s : State n) : (subComplete hn s).1.graph = s.graph := by
  simp only [subComplete, hntComplete, directedFollowFill, fullFollowFill]
  split_ifs <;> rfl

/-- What is done after a survey is no part of a follow-fill that has been started. -/
theorem sum_fill_eq_zero {w : Act n → ℕ} (hw : ∀ seed c, w (.fill seed c) = 0) {m : List (Act n)}
    (hm : ∀ a ∈ m, ∃ seed c, a = .fill seed c) : (m.map w).sum = 0 := by
  refine List.sum_eq_zero fun k hk => ?_
  obtain ⟨a, ha, rfl⟩ := List.mem_map.1 hk
  obtain ⟨seed, c, rfl⟩ := hm a ha
  exact hw seed c

theorem sum_starts_fill {m : List (Act n)} (hm : ∀ a ∈ m, ∃ seed c, a = .fill seed c) :
    (m.map Act.starts).sum = m.length := by
  induction m with
  | nil => rfl
  | cons a m ih =>
      obtain ⟨seed, c, rfl⟩ := hm a (by simp)
      simp [Act.starts, ih fun a ha => hm a (by simp [ha]), add_comm]

theorem Books.surveyed (h : Books s) {hn : HeadNode} {R : Multiset (Act n)}
    {ts : List (List (Act n))} (hzero : s.ffout = 0)
    (hold : pending s.threads = .subComplete ::ₘ R)
    (hnew : pending ts = ((subComplete hn s).2 : Multiset (Act n)) + R) :
    Books { (subComplete hn s).1 with threads := ts } := by
  obtain ⟨hfills, hnfill, hfollows, hinserts, hffout, hm⟩ := subComplete_fields hn s
  have hsum {w : Act n → ℕ} (hw : ∀ seed c, w (.fill seed c) = 0) (hsub : w .subComplete = 0) :
      ((pending ts).map w).sum = ((pending s.threads).map w).sum := by
    rw [hold, hnew, Multiset.map_add, Multiset.sum_add, Multiset.map_coe, Multiset.sum_coe,
      sum_fill_eq_zero hw hm, Multiset.map_cons, Multiset.sum_cons, hsub]
  refine h.same hfills hnfill (fun f => ?_) (fun f => ?_) (fun f => ?_) ?_
  · simp only [travs, hfollows]
    rw [hsum (fun _ _ => rfl) rfl]
  · simp only [puts, hinserts]
    rw [hsum (fun _ _ => rfl) rfl]
  · simp only [ends]
    rw [hsum (fun _ _ => rfl) rfl]
  · simp only [toStart, hnew, hold, Multiset.map_add, Multiset.sum_add, Multiset.map_coe,
      Multiset.sum_coe, sum_starts_fill hm, Multiset.map_cons, Multiset.sum_cons, Act.starts]
    rcases hffout with hffout | ⟨hffout, hnil⟩
    · rw [hffout]
      omega
    · rw [hffout, hnil]
      simp

/-- A step that ends a traversal or a fill, and completes the follow-fill if nothing is out any
more. -/
theorem Books.ended (h : Books s) {f : ℕ} {a : Act n} {r : FollowFill n} {p : Prop}
    [Decidable p] {R : Multiset (Act n)} {ts : List (List (Act n))}
    (hold : pending s.threads = a ::ₘ R)
    (hnew : pending ts = ((if p then [.fillComplete f] else [] : List (Act n)) : Multiset (Act n)) + R)
    (hone : a.travels f + a.fills f = 1) (hother : ∀ g, g ≠ f → a.travels g = 0 ∧ a.fills g = 0)
    (hcompletes : ∀ g, a.completes g = 0) (hstarts : a.starts = 0)
    (hout : r.outstanding = (s.fills f).outstanding - a.travels f)
    (hfill : r.fillsout = (s.fills f).fillsout - a.fills f)
    (hdone : r.travdone = true ↔ r.outstanding = 0)
    (hall : p ↔ r.outstanding = 0 ∧ r.fillsout = 0) :
    Books { s.setFill f r with threads := ts } := by
  have htravs (g : ℕ) : travs { s.setFill f r with threads := ts } g + a.travels g = travs s g := by
    simp only [travs, State.setFill, hold, hnew, Multiset.map_add, Multiset.sum_add,
      Multiset.map_cons, Multiset.sum_cons]
    split <;> simp [Act.travels] <;> omega
  have hputs (g : ℕ) : puts { s.setFill f r with threads := ts } g + a.fills g = puts s g := by
    simp only [puts, State.setFill, hold, hnew, Multiset.map_add, Multiset.sum_add,
      Multiset.map_cons, Multiset.sum_cons]
    split <;> simp [Act.fills] <;> omega
  have hends (g : ℕ) : ends { s.setFill f r with threads := ts } g =
      ends s g + if p ∧ f = g then 1 else 0 := by
    simp only [ends, hold, hnew, Multiset.map_add, Multiset.sum_add, Multiset.map_cons,
      Multiset.sum_cons, hcompletes]
    by_cases hd : p
    · simp [hd, Act.completes, add_comm]
    · simp [hd]
  have hpos : 0 < travs s f + puts s f := by
    have := htravs f
    have := hputs f
    omega
  have hf : f < s.nfill := h.lt_nfill (by omega)
  have hout₀ := h.outstanding f hf
  have hfill₀ := h.fillsout f hf
  have honce := h.once f
  have htravs' := htravs f
  have hputs' := hputs f
  have hends' := hends f
  refine h.change hf rfl rfl (fun g hg => ⟨?_, ?_, ?_⟩) (by omega) (by omega) ?_ ?_ (by omega) ?_ rfl ?_
  · have := htravs g
    rw [(hother g hg).1] at this
    exact this
  · have := hputs g
    rw [(hother g hg).2] at this
    exact this
  · rw [hends g, if_neg fun hd => hg hd.2.symm]
    rfl
  · rw [hdone]
    omega
  · rw [hends']
    split
    · rename_i hd
      have := hall.1 hd.1
      exact .inr (by omega)
    · exact .inl (by omega)
  · rw [hends']
    split
    · omega
    · rename_i hd
      have hnot : ¬ (r.outstanding = 0 ∧ r.fillsout = 0) := fun hz => hd ⟨hall.2 hz, rfl⟩
      omega
  · simp only [toStart, hold, hnew, Multiset.map_add, Multiset.sum_add, Multiset.map_cons,
      Multiset.sum_cons, hstarts]
    split <;> simp [Act.starts]

theorem Books.traversed (h : Books s) {f : ℕ} {R : Multiset (Act n)} {ts : List (List (Act n))}
    (hold : pending s.threads = .traverse f [] ::ₘ R)
    (hnew : pending ts = ((hetEnd s f).2 : Multiset (Act n)) + R) :
    Books { (hetEnd s f).1 with threads := ts } := by
  have hpos : 0 < travs s f := by simp [travs, hold, Act.travels]
  have hf : f < s.nfill := h.lt_nfill (by omega)
  have hdone := h.travdone f hf
  have hother (g : ℕ) (hg : g ≠ f) :
      (Act.traverse f [] : Act n).travels g = 0 ∧ (Act.traverse f [] : Act n).fills g = 0 :=
    ⟨if_neg hg.symm, rfl⟩
  simp only [hetEnd] at hnew ⊢
  split at hnew
  · rename_i hzero
    rw [if_pos hzero]
    exact h.ended hold hnew (by simp [Act.travels, Act.fills]) hother (fun _ => rfl) rfl
      (by simp [Act.travels]) (by simp [Act.fills]) (by simp [hzero]) (by simp [hzero])
  · rename_i hzero
    rw [if_neg hzero]
    refine h.ended (p := False) hold hnew (by simp [Act.travels, Act.fills]) hother (fun _ => rfl) rfl
      (by simp [Act.travels]) (by simp [Act.fills]) ?_ (by simp [hzero])
    simp only [hzero, hdone, iff_false]
    omega

theorem Books.filled (h : Books s) {f : ℕ} {R : Multiset (Act n)} {ts : List (List (Act n))}
    (hold : pending s.threads = .filled f ::ₘ R)
    (hnew : pending ts = ((heiEnd s f).2 : Multiset (Act n)) + R) :
    Books { (heiEnd s f).1 with threads := ts } := by
  have hpos : 0 < puts s f := by simp [puts, hold, Act.fills]
  have hf : f < s.nfill := h.lt_nfill (by omega)
  have hdone := h.travdone f hf
  have hout := h.outstanding f hf
  have hzero : (s.fills f).travdone = true ↔ (s.fills f).outstanding = 0 := by
    rw [hdone]
    omega
  exact h.ended hold hnew (by simp [Act.travels, Act.fills]) (fun g hg => ⟨rfl, if_neg hg.symm⟩)
    (fun _ => rfl) rfl (by simp [Act.travels]) (by simp [Act.fills]) hzero (by rw [hzero])

theorem Books.edge (h : Books s) {f : ℕ} {e : HeadEdge} {es : List HeadEdge} {R : Multiset (Act n)}
    {ts : List (List (Act n))} (hold : pending s.threads = .traverse f (e :: es) ::ₘ R)
    (hnew : pending ts = .traverse f es ::ₘ R) :
    Books { s.setFill f { s.fills f with fillsout := (s.fills f).fillsout + 1 } with
      inserts := s.inserts ++ [(f, e)]
      threads := ts } := by
  have hpos : 0 < travs s f := by simp [travs, hold, Act.travels]
  have hf : f < s.nfill := h.lt_nfill (by omega)
  have hout := h.outstanding f hf
  have hfill := h.fillsout f hf
  have hdone := h.travdone f hf
  have honce := h.once f
  set s' : State n := { s.setFill f { s.fills f with fillsout := (s.fills f).fillsout + 1 } with
    inserts := s.inserts ++ [(f, e)]
    threads := ts } with hs'
  have htravs (g : ℕ) : travs s' g = travs s g := by
    simp [hs', State.setFill, travs, hold, hnew, Act.travels]
  have hputs (g : ℕ) : puts s' g = puts s g + if f = g then 1 else 0 := by
    simp only [hs', puts, hold, hnew, Multiset.map_cons, Multiset.sum_cons, Act.fills,
      List.countP_append, List.countP_singleton, decide_eq_true_eq]
    omega
  have hends (g : ℕ) : ends s' g = ends s g := by
    simp [hs', ends, hold, hnew, Act.completes]
  have hputs' := hputs f
  rw [if_pos rfl] at hputs'
  refine h.change hf rfl rfl (fun g hg => ⟨htravs g, ?_, hends g⟩) ?_ ?_ ?_ ?_ (by omega) ?_ rfl ?_
  · rw [hputs, if_neg hg.symm]
    rfl
  · rw [htravs]
    exact hout
  · rw [hputs']
    push_cast
    omega
  · rw [htravs]
    exact hdone
  · rw [hends]
    exact .inl (by omega)
  · rw [htravs]
    omega
  · simp [hs', toStart, hold, hnew, Act.starts]

theorem mem_askAll {a : Act n} (h : a ∈ askAll n) : ∃ c, a = .furthest c := by
  obtain ⟨c, -, rfl⟩ := List.mem_map.1 h
  exact ⟨c, rfl⟩

/-- What the end of a follow-fill leaves alone. -/
theorem hetComplete_fields (s : State n) :
    (hetComplete s).1.fills = s.fills ∧ (hetComplete s).1.nfill = s.nfill ∧
      (hetComplete s).1.follows = s.follows ∧ (hetComplete s).1.inserts = s.inserts ∧
      (hetComplete s).1.ffout = s.ffout - 1 ∧ ∀ a ∈ (hetComplete s).2, ∃ c, a = .furthest c := by
  simp only [hetComplete, lastCheck, secondCheck, State.survey]
  split
  · split
    · exact ⟨rfl, rfl, rfl, rfl, rfl, fun _ => mem_askAll⟩
    · exact ⟨rfl, rfl, rfl, rfl, rfl, fun _ => mem_askAll⟩
  · simp

theorem hetComplete_graph (s : State n) : (hetComplete s).1.graph = s.graph := by
  simp only [hetComplete, lastCheck, secondCheck, State.survey]
  split_ifs <;> rfl

/-- The end of a traversal changes the follow-fill, and may complete it. -/
theorem hetEnd_cases (s : State n) (f : ℕ) :
    (∃ r, (hetEnd s f).1 = s.setFill f r ∧ r.hn = (s.fills f).hn ∧ r.targ = (s.fills f).targ) ∧
      ((hetEnd s f).2 = [] ∨ (hetEnd s f).2 = [.fillComplete f]) := by
  simp only [hetEnd]
  split
  · refine ⟨⟨_, rfl, rfl, rfl⟩, ?_⟩
    split <;> simp
  · exact ⟨⟨_, rfl, rfl, rfl⟩, by simp⟩

/-- The end of a fill changes the follow-fill, and may complete it. -/
theorem heiEnd_cases (s : State n) (f : ℕ) :
    (∃ r, (heiEnd s f).1 = s.setFill f r ∧ r.hn = (s.fills f).hn ∧ r.targ = (s.fills f).targ) ∧
      ((heiEnd s f).2 = [] ∨ (heiEnd s f).2 = [.fillComplete f]) := by
  simp only [heiEnd]
  refine ⟨⟨_, rfl, rfl, rfl⟩, ?_⟩
  split <;> simp

/-- **Every step keeps the books**, if follow-fills are started only where there are other children, and
a survey ends only when no follow-fills are out. -/
theorem Books.step (h : Books s) {hn : HeadNode}
    (hwide : ∀ seed c, Act.fill seed c ∈ pending s.threads → 1 < n)
    (hzero : Act.subComplete ∈ pending s.threads → s.ffout = 0) (hstep : Step hn s s') : Books s' := by
  cases hstep with
  | ask c R ts hold hnew =>
      refine h.same rfl rfl (fun f => ?_) (fun f => ?_) (fun f => ?_) ?_
      · simp [travs, hold, hnew, Act.travels]
      · simp [puts, hold, hnew, Act.fills]
      · simp [ends, hold, hnew, Act.completes]
      · simp [toStart, hold, hnew, Act.starts]
  | answered c hc =>
      have hsum {w : Act n → ℕ} (hsub : w .subComplete = 0) :
          ((pending (answer hn s c).threads).map w).sum = ((pending s.threads).map w).sum := by
        simp only [answer, pending_concat, Multiset.map_add, Multiset.sum_add]
        split <;> simp [hsub]
      refine h.same rfl rfl (fun f => ?_) (fun f => ?_) (fun f => ?_) ?_
      · simp only [travs, hsum (w := Act.travels f) rfl]
        rfl
      · simp only [puts, hsum (w := Act.fills f) rfl]
        rfl
      · simp only [ends, hsum (w := Act.completes f) rfl]
      · simp only [toStart, hsum (w := Act.starts) rfl]
        rfl
  | surveyed R ts hold hnew => exact h.surveyed (hzero (by simp [hold])) hold hnew
  | fill seed c R ts hold hnew =>
      have hlen := length_others_add_one c
      have hw := hwide seed c (by simp [hold])
      have htravs (g : ℕ) : travs { s with
          fills := Function.update s.fills s.nfill ⟨seed, c, (n : ℤ) - 1, false, 0⟩
          nfill := s.nfill + 1
          threads := ts } g = travs s g + if s.nfill = g then (others c).length else 0 := by
        simp only [travs, hold, hnew, Multiset.map_add, Multiset.sum_add, Multiset.map_coe,
          Multiset.sum_coe, sum_travels_follow, Multiset.map_cons, Multiset.sum_cons, Act.travels]
        omega
      have hsum {w : Act n → ℕ} (hw : ∀ c, w (.follow s.nfill c) = 0) :
          ((pending ts).map w).sum = (R.map w).sum := by
        rw [hnew, Multiset.map_add, Multiset.sum_add, Multiset.map_coe, Multiset.sum_coe, List.map_map,
          Nat.add_eq_right]
        refine List.sum_eq_zero fun k hk => ?_
        obtain ⟨c', -, rfl⟩ := List.mem_map.1 hk
        exact hw c'
      refine h.started rfl rfl (fun g hg => ?_) (fun g => ?_) (fun g => ?_) ?_ rfl rfl ?_ rfl ?_
      · rw [htravs, if_neg hg.symm]
        rfl
      · simp only [puts, hsum (w := Act.fills g) fun _ => rfl]
        simp [hold, Act.fills]
      · simp only [ends, hsum (w := Act.completes g) fun _ => rfl]
        simp [hold, Act.completes]
      · rw [htravs, if_pos rfl, (h.fresh s.nfill le_rfl).1]
        change (n : ℤ) - 1 = _
        omega
      · rw [htravs, if_pos rfl]
        omega
      · simp only [toStart, hsum (w := Act.starts) fun _ => rfl]
        simp [hold, Act.starts, add_comm]
  | follow f c R ts hold hnew =>
      refine h.same rfl rfl (fun g => ?_) (fun g => ?_) (fun g => ?_) ?_
      · simp only [travs, hold, hnew, Multiset.map_cons, Multiset.sum_cons, Act.travels,
          List.countP_append, List.countP_singleton, decide_eq_true_eq]
        omega
      · simp [puts, hold, hnew, Act.fills]
      · simp [ends, hold, hnew, Act.completes]
      · simp [toStart, hold, hnew, Act.starts]
  | followed f c ts hc hnew =>
      refine h.same rfl rfl (fun g => ?_) (fun g => ?_) (fun g => ?_) ?_
      · have := countP_erase_fst hc g
        simp only [travs, hnew, Multiset.map_cons, Multiset.sum_cons, Act.travels]
        omega
      · simp [puts, hnew, Act.fills]
      · simp [ends, hnew, Act.completes]
      · simp [toStart, hnew, Act.starts]
  | edge f e es R ts hold hnew => exact h.edge hold hnew
  | traversed f R ts hold hnew => exact h.traversed hold hnew
  | insert f e ts he hnew =>
      refine h.same rfl rfl (fun g => ?_) (fun g => ?_) (fun g => ?_) ?_
      · simp [travs, hnew, Act.travels]
      · have := countP_erase_fst he g
        simp only [puts, hnew, Multiset.map_cons, Multiset.sum_cons, Act.fills]
        omega
      · simp [ends, hnew, Act.completes]
      · simp [toStart, hnew, Act.starts]
  | filled f R ts hold hnew => exact h.filled hold hnew
  | completed f R ts hold hnew =>
      obtain ⟨hfills, hnfill, hfollows, hinserts, hffout, hm⟩ := hetComplete_fields s
      have hsum {w : Act n → ℕ} (hw : ∀ c, w (.furthest c) = 0) :
          ((pending ts).map w).sum = (R.map w).sum := by
        rw [hnew, Multiset.map_add, Multiset.sum_add, Multiset.map_coe, Multiset.sum_coe,
          Nat.add_eq_right]
        refine List.sum_eq_zero fun k hk => ?_
        obtain ⟨a, ha, rfl⟩ := List.mem_map.1 hk
        obtain ⟨c, rfl⟩ := hm a ha
        exact hw c
      refine h.completed (f := f) hfills hnfill (fun g => ?_) (fun g => ?_) (fun g hg => ?_) ?_ hffout ?_
      · simp only [travs, hsum (w := Act.travels g) fun _ => rfl, hfollows]
        simp [hold, Act.travels]
      · simp only [puts, hsum (w := Act.fills g) fun _ => rfl, hinserts]
        simp [hold, Act.fills]
      · simp only [ends, hsum (w := Act.completes g) fun _ => rfl]
        simp [hold, Act.completes, hg.symm]
      · simp only [ends, hsum (w := Act.completes f) fun _ => rfl]
        simp [hold, Act.completes, add_comm]
      · simp only [toStart, hsum (w := Act.starts) fun _ => rfl]
        simp [hold, Act.starts]

/-- When all follow-fills are complete, there is nothing left of them. -/
theorem Books.quiet (h : Books s) (hzero : s.ffout = 0) :
    s.follows = [] ∧ s.inserts = [] ∧
      ∀ a ∈ pending s.threads, (∃ c, a = .furthest c) ∨ a = .subComplete := by
  have hffout := h.ffout
  have hopen : openFills s = ∅ := Finset.card_eq_zero.1 (by omega)
  have hnone (f : ℕ) : travs s f = 0 ∧ puts s f = 0 ∧ ends s f = 0 := by
    rcases Nat.lt_or_ge f s.nfill with hf | hf
    · have hnot : f ∉ openFills s := by simp [hopen]
      rw [mem_openFills] at hnot
      omega
    · exact h.fresh f hf
  have hact {w : Act n → ℕ} (hw : ((pending s.threads).map w).sum = 0) (a : Act n)
      (ha : a ∈ pending s.threads) : w a = 0 :=
    Multiset.sum_eq_zero_iff.1 hw (w a) (Multiset.mem_map_of_mem w ha)
  have htravel (f : ℕ) : ((pending s.threads).map (Act.travels f)).sum = 0 := by
    have := (hnone f).1
    rw [travs] at this
    omega
  refine ⟨List.eq_nil_iff_forall_not_mem.2 fun x hx => ?_,
    List.eq_nil_iff_forall_not_mem.2 fun x hx => ?_, fun a ha => ?_⟩
  · have := (hnone x.1).1
    rw [travs] at this
    have hcount : s.follows.countP (fun y => decide (y.1 = x.1)) = 0 := by omega
    simpa using List.countP_eq_zero.1 hcount x hx
  · have := (hnone x.1).2.1
    rw [puts] at this
    have hcount : s.inserts.countP (fun y => decide (y.1 = x.1)) = 0 := by omega
    simpa using List.countP_eq_zero.1 hcount x hx
  · cases a with
    | furthest c => exact .inl ⟨c, rfl⟩
    | subComplete => exact .inr rfl
    | fill seed c =>
        have hstart : toStart s = 0 := by omega
        have := hact hstart _ ha
        simp [Act.starts] at this
    | follow f c =>
        have := hact (htravel f) _ ha
        simp [Act.travels] at this
    | traverse f l =>
        have := hact (htravel f) _ ha
        simp [Act.travels] at this
    | filled f =>
        have hput : ((pending s.threads).map (Act.fills f)).sum = 0 := by
          have := (hnone f).2.1
          rw [puts] at this
          omega
        have := hact hput _ ha
        simp [Act.fills] at this
    | fillComplete f =>
        have := hact (hnone f).2.2 _ ha
        simp [Act.completes] at this

end

/-! ### The graphs -/

/-- The children's graphs are parts of the forest, and so is what is about to be inserted; they have all
edges they started with. -/
structure Grown (es : List HeadEdge) (graph : Fin n → LameHeadNodeGraph) (s : State n) : Prop where
  part : ∀ c, Part es (s.graph c)
  kept : ∀ c, ∀ e ∈ (graph c).edges, e ∈ (s.graph c).edges
  traversed : ∀ f l, .traverse f l ∈ pending s.threads → ∀ e ∈ l, e ∈ es
  inserts : ∀ x ∈ s.inserts, x.2 ∈ es

section

variable {es : List HeadEdge} {graph : Fin n → LameHeadNodeGraph} {s s' : State n}

/-- A child that follows a node finds edges it has. -/
theorem mem_found {g : LameHeadNodeGraph} (hf : IsForest es) (h : Part es g) {seed : HeadNode}
    {e : HeadEdge} (he : e ∈ found g seed) : e ∈ g.edges := by
  simp only [found] at he
  split at he
  · rename_i l hl
    exact h.follow_sub hf hl e he
  · simp at he

/-- A step that inserts nothing. -/
theorem Grown.same (h : Grown es graph s) (hgraph : s'.graph = s.graph)
    (htraversed : ∀ f l, .traverse f l ∈ pending s'.threads →
      .traverse f l ∈ pending s.threads ∨ ∀ e ∈ l, e ∈ es)
    (hinserts : ∀ x ∈ s'.inserts, x ∈ s.inserts ∨ x.2 ∈ es) : Grown es graph s' where
  part c := hgraph ▸ h.part c
  kept c := hgraph ▸ h.kept c
  traversed f l hl := (htraversed f l hl).elim (h.traversed f l) id
  inserts x hx := (hinserts x hx).elim (h.inserts x) id

/-- **Every step keeps the graphs in the forest.** -/
theorem Grown.step (hf : IsForest es) (h : Grown es graph s) {hn : HeadNode} (hstep : Step hn s s') :
    Grown es graph s' := by
  cases hstep with
  | ask c R ts hold hnew =>
      refine h.same rfl (fun f l hl => .inl ?_) (fun x hx => .inl hx)
      rw [hnew] at hl
      simp [hold, hl]
  | answered c hc =>
      refine h.same rfl (fun f l hl => .inl ?_) (fun x hx => .inl hx)
      simp only [answer, pending_concat, Multiset.mem_add, Multiset.mem_coe] at hl
      split at hl
      · simpa using hl
      · simpa using hl
  | surveyed R ts hold hnew =>
      obtain ⟨-, -, -, hinserts, -, hm⟩ := subComplete_fields hn s
      refine h.same (subComplete_graph hn s) (fun f l hl => .inl ?_) (fun x hx => .inl (hinserts ▸ hx))
      rw [hnew, Multiset.mem_add, Multiset.mem_coe] at hl
      rcases hl with hl | hl
      · obtain ⟨seed, c, hact⟩ := hm _ hl
        simp at hact
      · simp [hold, hl]
  | fill seed c R ts hold hnew =>
      refine h.same rfl (fun f l hl => .inl ?_) (fun x hx => .inl hx)
      rw [hnew] at hl
      simpa [hold] using hl
  | follow f c R ts hold hnew =>
      refine h.same rfl (fun f l hl => .inl ?_) (fun x hx => .inl hx)
      rw [hnew] at hl
      simp [hold, hl]
  | followed f c ts hc hnew =>
      refine h.same rfl (fun f' l hl => ?_) (fun x hx => .inl hx)
      rw [hnew, Multiset.mem_cons] at hl
      rcases hl with hl | hl
      · obtain ⟨rfl, rfl⟩ := Act.traverse.inj hl
        exact .inr fun e he => (h.part c).sub e (mem_found hf (h.part c) he)
      · exact .inl hl
  | edge f e l R ts hold hnew =>
      have hall := h.traversed f (e :: l) (by simp [hold])
      refine h.same rfl (fun f' l' hl => ?_) (fun x hx => ?_)
      · rw [hnew, Multiset.mem_cons] at hl
        rcases hl with hl | hl
        · obtain ⟨rfl, rfl⟩ := Act.traverse.inj hl
          exact .inr fun e' he' => hall e' (List.mem_cons_of_mem e he')
        · exact .inl (by simp [hold, hl])
      · rcases List.mem_append.1 hx with hx | hx
        · exact .inl hx
        · rw [List.mem_singleton.1 hx]
          exact .inr (hall e List.mem_cons_self)
  | traversed f R ts hold hnew =>
      obtain ⟨⟨r, hr, -⟩, hm⟩ := hetEnd_cases s f
      refine h.same (by rw [hr]; rfl) (fun f' l hl => .inl ?_) (fun x hx => .inl ?_)
      · rw [hnew, Multiset.mem_add, Multiset.mem_coe] at hl
        rcases hl with hl | hl
        · rcases hm with hm | hm <;> simp [hm] at hl
        · simp [hold, hl]
      · rw [hr] at hx
        exact hx
  | insert f e ts he hnew =>
      have hins := (h.part (s.fills f).targ).insert hf (h.inserts (f, e) he)
      refine ⟨fun c => ?_, fun c e' he' => ?_, fun f' l hl => ?_, fun x hx => ?_⟩
      · rcases eq_or_ne c (s.fills f).targ with rfl | hne
        · simpa using hins.1
        · simpa [hne] using h.part c
      · rcases eq_or_ne c (s.fills f).targ with rfl | hne
        · simpa using (hins.2 e').2 (.inl (h.kept _ e' he'))
        · simpa [hne] using h.kept c e' he'
      · rw [hnew] at hl
        exact h.traversed f' l (by simpa using hl)
      · exact h.inserts x (List.mem_of_mem_erase hx)
  | filled f R ts hold hnew =>
      obtain ⟨⟨r, hr, -⟩, hm⟩ := heiEnd_cases s f
      refine h.same (by rw [hr]; rfl) (fun f' l hl => .inl ?_) (fun x hx => .inl ?_)
      · rw [hnew, Multiset.mem_add, Multiset.mem_coe] at hl
        rcases hl with hl | hl
        · rcases hm with hm | hm <;> simp [hm] at hl
        · simp [hold, hl]
      · rw [hr] at hx
        exact hx
  | completed f R ts hold hnew =>
      obtain ⟨-, -, -, hinserts, -, hm⟩ := hetComplete_fields s
      refine h.same (hetComplete_graph s) (fun f' l hl => .inl ?_) (fun x hx => .inl (hinserts ▸ hx))
      rw [hnew, Multiset.mem_add, Multiset.mem_coe] at hl
      rcases hl with hl | hl
      · obtain ⟨c, hact⟩ := hm _ hl
        simp at hact
      · simp [hold, hl]

end

end Furthest

end Utopfs
