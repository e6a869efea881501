/-
**Weakest preconditions for programs with state and exceptions.**

The imperative code of the development is written in `EStateM ε σ`: a program takes a state and
either returns a value or raises an exception, and in *both* cases hands back the state as it
stood at that moment — what had been modified before a `throw` stays modified, as in C++.

* `Prog.wp` — the weakest precondition of a program for a postcondition on normal returns and one
  on exceptions;
* `Prog.bind_apply` and its companions — the runs of programs, for straight-line code whose result is
  given as an equation;
* `Prog.wp_bind` and its companions — one rule per construct, oriented as simplification lemmas so
  that straight-line code is executed symbolically by `simp`;
* `Prog.wp_mono`, `Prog.wp_and`, `Prog.wp_seq` — the rules of consequence and of conjunction, and
  sequencing by the specification of a callee;
* `Prog.wp_forM` — the loop rule: an invariant indexed by the part of the list still to be done;
* `Prog.Keeps` — programs all of whose parts keep an invariant, with one rule per construct;
* `Prog.Alike` — two runs that go the same way, with one rule per construct.

Nothing here mentions a particular state or exception type.
-/

import Mathlib.Data.List.Basic

set_option relaxedAutoImplicit false
set_option autoImplicit false

namespace Prog

variable {ε σ α β : Type}

/-- The weakest precondition of `m` at the state `s`: the run of `m` from `s` either returns a
value satisfying `Q` or raises an exception satisfying `E`. -/
def wp (m : EStateM ε σ α) (Q : α → σ → Prop) (E : ε → σ → Prop) (s : σ) : Prop :=
  match m s with
  | .ok a s' => Q a s'
  | .error e s' => E e s'

theorem wp_ok {m : EStateM ε σ α} {Q : α → σ → Prop} {E : ε → σ → Prop} {s s' : σ} {a : α}
    (h : wp m Q E s) (hm : m s = .ok a s') : Q a s' := by
  simpa only [wp, hm] using h

theorem wp_error {m : EStateM ε σ α} {Q : α → σ → Prop} {E : ε → σ → Prop} {s s' : σ} {e : ε}
    (h : wp m Q E s) (hm : m s = .error e s') : E e s' := by
  simpa only [wp, hm] using h

/-! ### Running programs -/

theorem pure_apply (a : α) (s : σ) : (pure a : EStateM ε σ α) s = .ok a s := rfl

theorem bind_apply (m : EStateM ε σ α) (f : α → EStateM ε σ β) (s : σ) :
    (m >>= f) s = match m s with
      | .ok a s' => f a s'
      | .error e s' => .error e s' := rfl

theorem get_apply (s : σ) : (get : EStateM ε σ σ) s = .ok s s := rfl

theorem set_apply (s s' : σ) : (set s' : EStateM ε σ PUnit) s = .ok ⟨⟩ s' := rfl

theorem modify_apply (f : σ → σ) (s : σ) : (modify f : EStateM ε σ PUnit) s = .ok ⟨⟩ (f s) := rfl

theorem throw_apply (e : ε) (s : σ) : (throw e : EStateM ε σ α) s = .error e s := rfl

/-! ### One rule per construct -/

@[simp] theorem wp_pure (a : α) (Q : α → σ → Prop) (E : ε → σ → Prop) (s : σ) :
    wp (pure a) Q E s ↔ Q a s := Iff.rfl

@[simp] theorem wp_bind (m : EStateM ε σ α) (f : α → EStateM ε σ β) (Q : β → σ → Prop)
    (E : ε → σ → Prop) (s : σ) :
    wp (m >>= f) Q E s ↔ wp m (fun a => wp (f a) Q E) E s := by
  simp only [wp, bind, EStateM.bind]
  cases m s <;> rfl

@[simp] theorem wp_get (Q : σ → σ → Prop) (E : ε → σ → Prop) (s : σ) :
    wp get Q E s ↔ Q s s := Iff.rfl

@[simp] theorem wp_set (t : σ) (Q : PUnit → σ → Prop) (E : ε → σ → Prop) (s : σ) :
    wp (set t) Q E s ↔ Q ⟨⟩ t := Iff.rfl

@[simp] theorem wp_modify (f : σ → σ) (Q : PUnit → σ → Prop) (E : ε → σ → Prop) (s : σ) :
    wp (modify f) Q E s ↔ Q ⟨⟩ (f s) := Iff.rfl

@[simp] theorem wp_throw (e : ε) (Q : α → σ → Prop) (E : ε → σ → Prop) (s : σ) :
    wp (throw e) Q E s ↔ E e s := Iff.rfl

@[simp] theorem wp_tryCatch (m : EStateM ε σ α) (h : ε → EStateM ε σ α) (Q : α → σ → Prop)
    (E : ε → σ → Prop) (s : σ) :
    wp (tryCatch m h) Q E s ↔ wp m Q (fun e => wp (h e) Q E) s := by
  simp only [wp, tryCatch, tryCatchThe, MonadExceptOf.tryCatch, EStateM.tryCatch]
  cases m s <;> rfl

/-- The rule of consequence. -/
theorem wp_mono {m : EStateM ε σ α} {Q Q' : α → σ → Prop} {E E' : ε → σ → Prop} {s : σ}
    (h : wp m Q E s) (hQ : ∀ a s', Q a s' → Q' a s') (hE : ∀ e s', E e s' → E' e s') :
    wp m Q' E' s := by
  simp only [wp] at h ⊢
  cases hm : m s with
  | ok a s' => exact hQ a s' (by simpa only [hm] using h)
  | error e s' => exact hE e s' (by simpa only [hm] using h)

/-- Every program returns or raises an exception. -/
theorem wp_trivial (m : EStateM ε σ α) (s : σ) : wp m (fun _ _ => True) (fun _ _ => True) s := by
  simp only [wp]
  cases m s <;> trivial

/-- Two specifications of one program. -/
theorem wp_and {m : EStateM ε σ α} {Q Q' : α → σ → Prop} {E E' : ε → σ → Prop} {s : σ}
    (h : wp m Q E s) (h' : wp m Q' E' s) :
    wp m (fun a t => Q a t ∧ Q' a t) (fun e t => E e t ∧ E' e t) s := by
  simp only [wp] at h h' ⊢
  cases hm : m s with
  | ok a s' => exact ⟨by simpa only [hm] using h, by simpa only [hm] using h'⟩
  | error e s' => exact ⟨by simpa only [hm] using h, by simpa only [hm] using h'⟩

/-- A program that cannot raise an exception returns. -/
theorem exists_ok {m : EStateM ε σ α} {Q : α → σ → Prop} {s : σ}
    (h : wp m Q (fun _ _ => False) s) : ∃ a s', m s = .ok a s' ∧ Q a s' := by
  simp only [wp] at h
  cases hm : m s with
  | ok a s' => exact ⟨a, s', rfl, by simpa only [hm] using h⟩
  | error e s' => simp only [hm] at h

/-- A sequence that returns runs through both of its programs. -/
theorem ok_of_bind {m : EStateM ε σ α} {f : α → EStateM ε σ β} {s s'' : σ} {b : β}
    (h : (m >>= f) s = .ok b s'') : ∃ a s', m s = .ok a s' ∧ f a s' = .ok b s'' := by
  rw [bind_apply] at h
  cases hm : m s with
  | ok a s' => exact ⟨a, s', rfl, by simpa only [hm] using h⟩
  | error e s' => simp [hm] at h

/-- A program that returns with a handler has returned without it, or the handler has. -/
theorem ok_of_tryCatch {m : EStateM ε σ α} {g : ε → EStateM ε σ α} {s s'' : σ} {a : α}
    (h : tryCatch m g s = .ok a s'') :
    m s = .ok a s'' ∨ ∃ e s', m s = .error e s' ∧ g e s' = .ok a s'' := by
  simp only [MonadExcept.tryCatch, tryCatchThe, MonadExceptOf.tryCatch, EStateM.tryCatch] at h
  split at h
  case h_1 e s' hm => exact .inr ⟨e, s', hm, h⟩
  case h_2 => exact .inl h

/-- The program returns from `s`, and the result passes a test. -/
def passes (m : EStateM ε σ α) (q : α → σ → Bool) (s : σ) : Bool :=
  match m s with
  | .ok a s' => q a s'
  | .error _ _ => false

theorem exists_of_passes {m : EStateM ε σ α} {q : α → σ → Bool} {s : σ} (h : passes m q s = true) :
    ∃ a s', m s = .ok a s' ∧ q a s' = true := by
  simp only [passes] at h
  cases hm : m s with
  | ok a s' => exact ⟨a, s', rfl, by simpa only [hm] using h⟩
  | error e s' => simp [hm] at h

/-- The program raises an exception. -/
def raises (m : EStateM ε σ α) (s : σ) : Bool :=
  match m s with
  | .ok _ _ => false
  | .error _ _ => true

theorem exists_of_raises {m : EStateM ε σ α} {s : σ} (h : raises m s = true) :
    ∃ e s', m s = .error e s' := by
  simp only [raises] at h
  cases hm : m s with
  | ok a s' => simp [hm] at h
  | error e s' => exact ⟨e, s', rfl⟩

/-- Sequencing through the specification of the first program. -/
theorem wp_seq {m : EStateM ε σ α} {f : α → EStateM ε σ β} {Q : α → σ → Prop} {Q' : β → σ → Prop}
    {E E' : ε → σ → Prop} {s : σ} (h : wp m Q E s) (hQ : ∀ a s', Q a s' → wp (f a) Q' E' s')
    (hE : ∀ e s', E e s' → E' e s') : wp (m >>= f) Q' E' s :=
  (wp_bind m f Q' E' s).2 (wp_mono h hQ hE)

/-! ### Loops -/

/-- The loop rule.  The invariant `I l s` speaks of the part `l` of the list still to be done; it
is enough that one iteration carries `I (a :: l)` to `I l`. -/
theorem wp_forM {f : α → EStateM ε σ PUnit} {I : List α → σ → Prop} {E : ε → σ → Prop}
    (hstep : ∀ a l s, I (a :: l) s → wp (f a) (fun _ => I l) E s) :
    ∀ (l : List α) (s : σ), I l s → wp (forM l f) (fun _ => I []) E s := by
  intro l
  induction l with
  | nil => intro s h; exact h
  | cons a l ih =>
      intro s h
      rw [List.forM_cons, wp_bind]
      exact wp_mono (hstep a l s h) (fun _ s' h' => ih s' h') (fun _ _ h' => h')

/-! ### Programs that keep an invariant -/

/-- The program keeps the invariant `I`, and raises only exceptions that satisfy `F`. -/
def Keeps (I : σ → Prop) (F : ε → Prop) (m : EStateM ε σ α) : Prop :=
  ∀ s, I s → wp m (fun _ => I) (fun e s' => F e ∧ I s') s

section keeps

variable {I : σ → Prop} {F : ε → Prop}

theorem Keeps.pure (a : α) : Keeps I F (pure a) := fun _ h => h

theorem Keeps.throw {e : ε} (he : F e) : Keeps I F (throw e : EStateM ε σ α) := fun _ h => ⟨he, h⟩

theorem Keeps.get : Keeps I F (get : EStateM ε σ σ) := fun _ h => h

theorem Keeps.modify {f : σ → σ} (hf : ∀ s, I s → I (f s)) : Keeps I F (modify f) := hf

theorem Keeps.bind {m : EStateM ε σ α} {f : α → EStateM ε σ β} (hm : Keeps I F m)
    (hf : ∀ a, Keeps I F (f a)) : Keeps I F (m >>= f) :=
  fun s h => wp_seq (hm s h) (fun a s' h' => hf a s' h') (fun _ _ h' => h')

theorem Keeps.ite {c : Prop} [Decidable c] {m m' : EStateM ε σ α} (hm : Keeps I F m) (hm' : Keeps I F m') :
    Keeps I F (if c then m else m') := by
  split
  · exact hm
  · exact hm'

theorem Keeps.forM {f : α → EStateM ε σ PUnit} (hf : ∀ a, Keeps I F (f a)) (l : List α) :
    Keeps I F (forM l f) := by
  induction l with
  | nil => exact Keeps.pure _
  | cons a l ih =>
      rw [List.forM_cons]
      exact (hf a).bind fun _ => ih

end keeps

/-! ### Two runs that go the same way -/

/-- The two runs return the same value, or raise the same exception, which satisfies `F`; the states they
hand back are related by `R`. -/
def Alike (R : σ → σ → Prop) (F : ε → Prop) (m m' : EStateM ε σ α) (s s' : σ) : Prop :=
  match m s, m' s' with
  | .ok a t, .ok a' t' => a = a' ∧ R t t'
  | .error e t, .error e' t' => e = e' ∧ F e ∧ R t t'
  | _, _ => False

section alike

variable {R : σ → σ → Prop} {F : ε → Prop} {s s' : σ}

theorem Alike.pure (h : R s s') (a : α) : Alike R F (pure a) (pure a) s s' := ⟨rfl, h⟩

theorem Alike.throw (h : R s s') {e : ε} (he : F e) :
    Alike R F (throw e : EStateM ε σ α) (throw e) s s' := ⟨rfl, he, h⟩

theorem Alike.get {f f' : σ → EStateM ε σ α} (h : Alike R F (f s) (f' s') s s') :
    Alike R F (get >>= f) (get >>= f') s s' := h

theorem Alike.set {t t' : σ} (h : R t t') : Alike R F (set t) (set t') s s' := ⟨rfl, h⟩

theorem Alike.modify {f f' : σ → σ} (h : R (f s) (f' s')) : Alike R F (modify f) (modify f') s s' := ⟨rfl, h⟩

theorem Alike.bind {m m' : EStateM ε σ α} {f f' : α → EStateM ε σ β} (hm : Alike R F m m' s s')
    (hf : ∀ a t t', R t t' → Alike R F (f a) (f' a) t t') : Alike R F (m >>= f) (m' >>= f') s s' := by
  simp only [Alike, bind_apply] at hm ⊢
  cases h : m s with
  | ok a t =>
      cases h' : m' s' with
      | ok a' t' =>
          simp only [h, h'] at hm
          obtain ⟨rfl, ht⟩ := hm
          exact hf a t t' ht
      | error e' t' => simp [h, h'] at hm
  | error e t =>
      cases h' : m' s' with
      | ok a' t' => simp [h, h'] at hm
      | error e' t' => simpa only [h, h'] using hm

/-- Exceptions are caught; the exceptions of the handlers satisfy `F'`. -/
theorem Alike.tryCatch {F' : ε → Prop} {m m' : EStateM ε σ α} {g g' : ε → EStateM ε σ α}
    (hm : Alike R F m m' s s') (hg : ∀ e t t', F e → R t t' → Alike R F' (g e) (g' e) t t') :
    Alike R F' (tryCatch m g) (tryCatch m' g') s s' := by
  simp only [Alike, MonadExcept.tryCatch, tryCatchThe, MonadExceptOf.tryCatch, EStateM.tryCatch] at hm ⊢
  cases h : m s with
  | ok a t =>
      cases h' : m' s' with
      | ok a' t' => simpa only [h, h'] using hm
      | error e' t' => simp [h, h'] at hm
  | error e t =>
      cases h' : m' s' with
      | ok a' t' => simp [h, h'] at hm
      | error e' t' =>
          simp only [h, h'] at hm
          obtain ⟨rfl, he, ht⟩ := hm
          exact hg e t t' he ht

theorem Alike.ite {c : Prop} [Decidable c] {m m' n n' : EStateM ε σ α} (hm : c → Alike R F m m' s s')
    (hn : ¬ c → Alike R F n n' s s') :
    Alike R F (if c then m else n) (if c then m' else n') s s' := by
  split
  case isTrue h => exact hm h
  case isFalse h => exact hn h

end alike

end Prog
