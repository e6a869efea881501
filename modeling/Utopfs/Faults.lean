/-
**Stopping a program is failing one of its requests.**

A program writes a log, and some of its requests fail as a plan of faults in its state says.  Where the
process stops in the middle, what is left is a beginning of the log of the run.  The same beginning is left
by a run that is not stopped and in which the next request fails: the plan is the one of the run up to
there, with one more fault.  So what holds after every run, whatever its faults, holds at every point where
the process may stop.

* `Prog.Faulty` — where the plan and the log are in a state, and what all steps have in common;
* `Prog.StopsAt`, `Prog.Stops` — every point of the log is reached by a run with some faults;
* `Prog.Stops.bind`, `Prog.Stops.tryCatch` and their companions — one rule per construct.

Nothing here mentions a particular state or exception type.
-/

import Mathlib.Data.Set.Operations
import Utopfs.Prog

set_option relaxedAutoImplicit false
set_option autoImplicit false

namespace Prog

variable {ε σ η α β : Type}

/-- The state in which a run ends. -/
def final (m : EStateM ε σ α) (s : σ) : σ :=
  match m s with
  | .ok _ s' => s'
  | .error _ s' => s'

/-- A result in another state. -/
def mapState (g : σ → σ) : EStateM.Result ε σ α → EStateM.Result ε σ α
  | .ok a s => .ok a (g s)
  | .error e s => .error e (g s)

/-- The plan of faults and the log of a state, newest first, the exception of a fault, and a relation
between the states of a run. -/
structure Faulty (ε σ η : Type) where
  setFaults : List Bool → σ → σ
  log : σ → List η
  fault : ε
  Step : σ → σ → Prop
  refl : ∀ s, Step s s
  trans : ∀ {s s' s''}, Step s s' → Step s' s'' → Step s s''
  grows : ∀ {s s'}, Step s s' → log s <:+ log s'
  log_setFaults : ∀ l s, log (setFaults l s) = log s

variable (P : Faulty ε σ η)

/-- The run with this plan stops after this much of the log. -/
def StopsWith (m : EStateM ε σ α) (s : σ) (faults : List Bool) (l : List η) : Prop :=
  ∃ s', m (P.setFaults faults s) = .error P.fault s' ∧ P.log s' = l

/-- The run uses up some faults of the plan; another plan that begins with these leads to the same end,
and another plan again to any point of the log before it. -/
structure StopsAt (m : EStateM ε σ α) (s : σ) : Prop where
  step : P.Step s (final m s)
  plan : ∃ used, (∀ rest, m (P.setFaults (used ++ rest) s) = mapState (P.setFaults rest) (m s)) ∧
    ∀ l, P.log s <:+ l → l <:+ P.log (final m s) → l ≠ P.log (final m s) →
      ∃ faults, StopsWith P m s faults l

/-- From every state, any point of the log is reached by a run with some faults. -/
def Stops (m : EStateM ε σ α) : Prop := ∀ s, StopsAt P m s

variable {P}

/-! ### Runs -/

section runs

variable {m : EStateM ε σ α} {s s' : σ}

theorem final_ok {a : α} (h : m s = .ok a s') : final m s = s' := by
  rw [final, h]

theorem final_error {e : ε} (h : m s = .error e s') : final m s = s' := by
  rw [final, h]

/-- A run without a request. -/
theorem StopsAt.quiet (hm : ∀ l, m (P.setFaults l s) = mapState (P.setFaults l) (m s))
    (hstep : P.Step s (final m s)) (hlog : P.log (final m s) = P.log s) : StopsAt P m s := by
  refine ⟨hstep, [], hm, fun l hl hl' hne => ?_⟩
  rw [hlog] at hl' hne
  exact absurd (hl'.eq_of_length_le hl.length_le) hne

/-- A run with one request, which is logged unless it fails. -/
theorem StopsAt.request {b : Bool} (hstep : P.Step s (final m s))
    (hplan : ∀ rest, m (P.setFaults (b :: rest) s) = mapState (P.setFaults rest) (m s))
    (hfault : ∃ faults, StopsWith P m s faults (P.log s)) {x : η}
    (hlog : P.log (final m s) = P.log s ∨ P.log (final m s) = x :: P.log s) : StopsAt P m s := by
  refine ⟨hstep, [b], hplan, fun l hl hl' hne => ?_⟩
  have heq : l = P.log s := by
    rcases hlog with hlog | hlog
    · rw [hlog] at hl'
      exact hl'.eq_of_length_le hl.length_le
    · rw [hlog] at hl' hne
      exact ((List.suffix_cons_iff.1 hl').resolve_left hne).eq_of_length_le hl.length_le
  rw [heq]
  exact hfault

/-- A program that makes no request. -/
theorem Stops.quiet (hm : ∀ l s, m (P.setFaults l s) = mapState (P.setFaults l) (m s))
    (hstep : ∀ s, P.Step s (final m s)) (hlog : ∀ s, P.log (final m s) = P.log s) : Stops P m :=
  fun s => .quiet (fun l => hm l s) (hstep s) (hlog s)

theorem Stops.pure (a : α) : Stops P (pure a) :=
  .quiet (fun _ _ => rfl) P.refl fun _ => rfl

theorem Stops.throw (e : ε) : Stops P (throw e : EStateM ε σ α) :=
  .quiet (fun _ _ => rfl) P.refl fun _ => rfl

/-- The program is another one, which depends on something of the state but not on the plan. -/
theorem Stops.of_eq {γ : Type} {m : EStateM ε σ α} {c : σ → γ} {f : γ → EStateM ε σ α}
    (hrun : ∀ s, m s = f (c s) s) (hc : ∀ l s, c (P.setFaults l s) = c s) (hf : ∀ x, Stops P (f x)) :
    Stops P m := by
  intro s
  obtain ⟨hstep, used, hplan, hstop⟩ := hf (c s) s
  have hfaults : ∀ l, m (P.setFaults l s) = f (c s) (P.setFaults l s) := fun l => by rw [hrun, hc]
  have hend : final m s = final (f (c s)) s := by simp only [final, hrun]
  refine ⟨by rw [hend]; exact hstep, used, fun rest => ?_, fun l hl hl' hne => ?_⟩
  · rw [hfaults, hplan, hrun]
  · rw [hend] at hl' hne
    obtain ⟨faults, s', hs', hlog⟩ := hstop l hl hl' hne
    exact ⟨faults, s', (hfaults faults).trans hs', hlog⟩

/-- Reading something of the state, but not the plan. -/
theorem Stops.get {f : σ → EStateM ε σ α} (hf : ∀ l s, f (P.setFaults l s) = f s) (hs : ∀ s, Stops P (f s)) :
    Stops P (get >>= f) := by
  refine .of_eq (c := fun s => (⟨f s, s, rfl⟩ : Set.range f)) (f := Subtype.val) (fun _ => rfl) ?_ ?_
  · exact fun l s => Subtype.ext (hf l s)
  · rintro ⟨_, s, rfl⟩
    exact hs s

/-- Changing something of the state, but neither the plan nor the log. -/
theorem Stops.modify {g : σ → σ} (hg : ∀ l s, g (P.setFaults l s) = P.setFaults l (g s))
    (hstep : ∀ s, P.Step s (g s)) (hlog : ∀ s, P.log (g s) = P.log s) : Stops P (modify g) :=
  .quiet (fun l s => congrArg (EStateM.Result.ok PUnit.unit) (hg l s)) hstep hlog

end runs

/-! ### One rule per construct -/

/-- **Sequencing.**  The process stops in the first program, or in the second. -/
theorem Stops.bind {m : EStateM ε σ α} {f : α → EStateM ε σ β} (hm : Stops P m) (hf : ∀ a, Stops P (f a)) :
    Stops P (m >>= f) := by
  intro s
  obtain ⟨hstep, used, hplan, hstop⟩ := hm s
  cases hrun : m s with
  | error e s₁ =>
      have hend : final (m >>= f) s = s₁ := final_error (by rw [bind_apply, hrun])
      rw [final_error hrun] at hstep hstop
      rw [hrun] at hplan
      refine ⟨by rw [hend]; exact hstep, used, fun rest => ?_, fun l hl hl' hne => ?_⟩
      · rw [bind_apply, bind_apply, hplan rest, hrun]
        rfl
      · rw [hend] at hl' hne
        obtain ⟨faults, s', hs', hlog⟩ := hstop l hl hl' hne
        exact ⟨faults, s', by rw [bind_apply, hs'], hlog⟩
  | ok a s₁ =>
      obtain ⟨hstep₁, used₁, hplan₁, hstop₁⟩ := hf a s₁
      have hend : final (m >>= f) s = final (f a) s₁ := by
        simp only [final, bind_apply, hrun]
      rw [final_ok hrun] at hstep hstop
      rw [hrun] at hplan
      refine ⟨by rw [hend]; exact P.trans hstep hstep₁, used ++ used₁, fun rest => ?_, fun l hl hl' hne => ?_⟩
      · rw [List.append_assoc, bind_apply, bind_apply, hplan, hrun]
        exact hplan₁ rest
      · rw [hend] at hl' hne
        -- The point is before the end of the first program, or in the second.
        rcases List.suffix_or_suffix_of_suffix hl' (P.grows hstep₁) with hfirst | hsecond
        · by_cases heq : l = P.log s₁
          · subst heq
            obtain ⟨faults, s', hs', hlog⟩ := hstop₁ _ (List.suffix_refl _) hl' hne
            refine ⟨used ++ faults, s', ?_, hlog⟩
            rw [bind_apply, hplan]
            exact hs'
          · obtain ⟨faults, s', hs', hlog⟩ := hstop l hl hfirst heq
            exact ⟨faults, s', by rw [bind_apply, hs'], hlog⟩
        · obtain ⟨faults, s', hs', hlog⟩ := hstop₁ l hsecond hl' hne
          refine ⟨used ++ faults, s', ?_, hlog⟩
          rw [bind_apply, hplan]
          exact hs'

theorem tryCatch_apply (m : EStateM ε σ α) (g : ε → EStateM ε σ α) (s : σ) :
    tryCatch m g s = match m s with
      | .ok a s' => .ok a s'
      | .error e s' => g e s' := by
  simp only [MonadExcept.tryCatch, tryCatchThe, MonadExceptOf.tryCatch, EStateM.tryCatch]
  cases m s <;> rfl

/-- Exceptions are caught, but not those of a fault. -/
theorem Stops.tryCatch {m : EStateM ε σ α} {g : ε → EStateM ε σ α} (hm : Stops P m) (hg : ∀ e, Stops P (g e))
    (hfault : g P.fault = MonadExcept.throw P.fault) : Stops P (tryCatch m g) := by
  have hcatch := tryCatch_apply m g
  have hstopped : ∀ {s s' : σ}, m s = .error P.fault s' →
      MonadExcept.tryCatch m g s = .error P.fault s' := by
    intro s s' hs
    rw [hcatch, hs]
    exact congrArg (fun n : EStateM ε σ α => n s') hfault
  intro s
  obtain ⟨hstep, used, hplan, hstop⟩ := hm s
  cases hrun : m s with
  | ok a s₁ =>
      have hend : final (MonadExcept.tryCatch m g) s = s₁ := final_ok (by rw [hcatch, hrun])
      rw [final_ok hrun] at hstep hstop
      rw [hrun] at hplan
      refine ⟨by rw [hend]; exact hstep, used, fun rest => ?_, fun l hl hl' hne => ?_⟩
      · rw [hcatch, hcatch, hplan rest, hrun]
        rfl
      · rw [hend] at hl' hne
        obtain ⟨faults, s', hs', hlog⟩ := hstop l hl hl' hne
        exact ⟨faults, s', hstopped hs', hlog⟩
  | error e s₁ =>
      obtain ⟨hstep₁, used₁, hplan₁, hstop₁⟩ := hg e s₁
      have hend : final (MonadExcept.tryCatch m g) s = final (g e) s₁ := by
        simp only [final, hcatch, hrun]
      rw [final_error hrun] at hstep hstop
      rw [hrun] at hplan
      have hgo : ∀ rest, MonadExcept.tryCatch m g (P.setFaults (used ++ rest) s) = g e (P.setFaults rest s₁) := by
        intro rest
        rw [hcatch, hplan rest]
        rfl
      refine ⟨by rw [hend]; exact P.trans hstep hstep₁, used ++ used₁, fun rest => ?_, fun l hl hl' hne => ?_⟩
      · rw [List.append_assoc, hgo, hcatch s, hrun]
        exact hplan₁ rest
      · rw [hend] at hl' hne
        rcases List.suffix_or_suffix_of_suffix hl' (P.grows hstep₁) with hfirst | hsecond
        · by_cases heq : l = P.log s₁
          · subst heq
            obtain ⟨faults, s', hs', hlog⟩ := hstop₁ _ (List.suffix_refl _) hl' hne
            exact ⟨used ++ faults, s', (hgo faults).trans hs', hlog⟩
          · obtain ⟨faults, s', hs', hlog⟩ := hstop l hl hfirst heq
            exact ⟨faults, s', hstopped hs', hlog⟩
        · obtain ⟨faults, s', hs', hlog⟩ := hstop₁ l hsecond hl' hne
          exact ⟨used ++ faults, s', (hgo faults).trans hs', hlog⟩

theorem Stops.ite {c : Prop} [Decidable c] {m m' : EStateM ε σ α} (hm : Stops P m) (hm' : Stops P m') :
    Stops P (if c then m else m') := by
  split
  · exact hm
  · exact hm'

/-- A conditional that is followed by the same program. -/
theorem Stops.choice {c : Prop} [Decidable c] {m m' : EStateM ε σ α} {f : α → EStateM ε σ β} (hm : Stops P m)
    (hm' : Stops P m') (hf : ∀ a, Stops P (f a)) : Stops P (if c then m >>= f else m' >>= f) :=
  .ite (hm.bind hf) (hm'.bind hf)

/-- A conditional without an alternative that is followed by a program. -/
theorem Stops.when {c : Prop} [Decidable c] {m : EStateM ε σ PUnit} {f : PUnit → EStateM ε σ β}
    (hm : Stops P m) (hf : Stops P (f ⟨⟩)) : Stops P (if c then m >>= f else f ⟨⟩) :=
  .ite (hm.bind fun _ => hf) hf

theorem Stops.forM {f : α → EStateM ε σ PUnit} (hf : ∀ a, Stops P (f a)) (l : List α) : Stops P (forM l f) := by
  induction l with
  | nil => exact Stops.pure _
  | cons a l ih =>
      rw [List.forM_cons]
      exact (hf a).bind fun _ => ih

end Prog
