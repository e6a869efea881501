/-
**Traversals of a whole file.**

The bytes of a file are the inline data and the bytes under its reference fields, one after the other.
`FileNode::rb_traverse` goes through the inline data, the direct references and the three indirect
ones, as far as the range reaches.

Main definitions:

* `UTFS.FSlot.at` — the reference field for an offset;
* `UTFS.fileBytes` — the bytes of a file;
* `UTFS.FileWrote` — what a traversal that changes the file does.

Main results:

* `UTFS.wp_rbTraverseFile`, `UTFS.wp_rbTraverseFile_read` — `FileNode::rb_traverse` in both modes.
-/

import Utopfs.TraverseRead

set_option relaxedAutoImplicit false
set_option autoImplicit false

namespace Utopfs

namespace UTFS

open Prog

variable {E : Env} {V : Type}

/-! ### The layout of a file -/

/-- The reference field for an offset of the file. -/
def FSlot.at (a : ℕ) : Option FSlot :=
  if a < 4096 then none
  else if h : a < 167936 then some (.dir ⟨(a - 4096) / 8192, by omega⟩)
  else if a < 2265088 then some .sin
  else if a < 539136000 then some .din
  else if a < maxSize then some .tin
  else none

theorem maxSize_eq : maxSize = 137978089472 := by decide

theorem FSlot.base_dir (i : Fin 20) : (FSlot.dir i).base = 4096 + i * 8192 := rfl

theorem FSlot.top_dir (i : Fin 20) : (FSlot.dir i).top = 4096 + i * 8192 + 8192 := rfl

theorem FSlot.top_sin : FSlot.sin.top = 2265088 := by decide

theorem FSlot.top_din : FSlot.din.top = 539136000 := by decide

theorem FSlot.top_tin : FSlot.tin.top = maxSize := by decide

theorem FSlot.top_eq (s : FSlot) : s.top = s.base + span s.level := rfl

theorem FSlot.at_eq {s : FSlot} {a : ℕ} (h₁ : s.base ≤ a) (h₂ : a < s.top) : FSlot.at a = some s := by
  have hm := maxSize_eq
  cases s with
  | dir i =>
      rw [FSlot.base_dir] at h₁
      rw [FSlot.top_dir] at h₂
      have hi := i.2
      have h₃ : ¬ a < 4096 := by omega
      have h₄ : a < 167936 := by omega
      have h₅ : (a - 4096) / 8192 = i.1 := by omega
      simp only [FSlot.at, h₃, h₄, if_false, dif_pos, h₅]
  | sin =>
      rw [FSlot.top_sin] at h₂
      simp only [FSlot.base] at h₁
      simp [FSlot.at, show ¬ a < 4096 by omega, show ¬ a < 167936 by omega, h₂]
  | din =>
      rw [FSlot.top_din] at h₂
      simp only [FSlot.base] at h₁
      simp [FSlot.at, show ¬ a < 4096 by omega, show ¬ a < 167936 by omega,
        show ¬ a < 2265088 by omega, h₂]
  | tin =>
      rw [FSlot.top_tin] at h₂
      simp only [FSlot.base] at h₁
      simp [FSlot.at, show ¬ a < 4096 by omega, show ¬ a < 167936 by omega,
        show ¬ a < 2265088 by omega, show ¬ a < 539136000 by omega, h₂]

theorem FSlot.exists_at {a : ℕ} (h₁ : 4096 ≤ a) (h₂ : a < maxSize) :
    ∃ s : FSlot, s.base ≤ a ∧ a < s.top := by
  have hm := maxSize_eq
  rcases Nat.lt_or_ge a 167936 with h | h
  · refine ⟨.dir ⟨(a - 4096) / 8192, by omega⟩, ?_, ?_⟩
    · rw [FSlot.base_dir]
      simp only
      omega
    · rw [FSlot.top_dir]
      simp only
      omega
  rcases Nat.lt_or_ge a 2265088 with h' | h'
  · exact ⟨.sin, h, by rw [FSlot.top_sin]; exact h'⟩
  rcases Nat.lt_or_ge a 539136000 with h'' | h''
  · exact ⟨.din, h', by rw [FSlot.top_din]; exact h''⟩
  · exact ⟨.tin, h'', by rw [FSlot.top_tin]; exact h₂⟩

theorem FSlot.base_ge (s : FSlot) : 4096 ≤ s.base := by
  cases s with
  | dir i => rw [FSlot.base_dir]; omega
  | sin => decide
  | din => decide
  | tin => decide

theorem FSlot.top_le (s : FSlot) : s.top ≤ maxSize := by
  have hm := maxSize_eq
  cases s with
  | dir i => rw [FSlot.top_dir]; omega
  | sin => rw [FSlot.top_sin]; omega
  | din => rw [FSlot.top_din]; omega
  | tin => rw [FSlot.top_tin]

/-- Different reference fields are for different offsets. -/
theorem FSlot.top_le_base {s s' : FSlot} (h : s ≠ s') : s.top ≤ s'.base ∨ s'.top ≤ s.base := by
  rcases Nat.lt_or_ge s'.base s.top with h₁ | h₁
  · rcases Nat.lt_or_ge s.base s'.top with h₂ | h₂
    · -- The larger of the two bases is an offset under both.
      exfalso
      have hs := s.top_eq
      have hs' := s'.top_eq
      have hp := span_pos s.level
      have hp' := span_pos s'.level
      have e := FSlot.at_eq (s := s) (a := max s.base s'.base) (by omega) (by omega)
      rw [FSlot.at_eq (s := s') (a := max s.base s'.base) (by omega) (by omega)] at e
      exact h (Option.some.inj e).symm
    · exact .inr h₂
  · exact .inl h₁

/-- An offset where a reference field begins or ends. -/
def Boundary (b : ℕ) : Prop := ∀ s : FSlot, s.top ≤ b ∨ b ≤ s.base

theorem Boundary.base (s : FSlot) : Boundary s.base := by
  intro s'
  by_cases hs : s' = s
  · subst hs
    exact .inr (Nat.le_refl _)
  · have h := s'.top_eq
    rcases FSlot.top_le_base hs with h' | h'
    · exact .inl h'
    · have := s.top_eq
      exact .inr (by omega)

theorem Boundary.top (s : FSlot) : Boundary s.top := by
  intro s'
  by_cases hs : s' = s
  · subst hs
    exact .inl (Nat.le_refl _)
  · have h := s.top_eq
    rcases FSlot.top_le_base hs with h' | h'
    · exact .inl (by omega)
    · exact .inr h'

theorem Boundary.dir {k : ℕ} (hk : k ≤ 20) : Boundary (4096 + k * 8192) := by
  rcases Nat.lt_or_eq_of_le hk with hk | rfl
  · exact Boundary.base (.dir ⟨k, hk⟩)
  · exact Boundary.top (.dir 19)

variable (E) in
/-- **The bytes of a file.** -/
def fileBytes (w : World) (f a : ℕ) : UInt8 :=
  if a < 4096 then byteAt (w.fil f).inl a
  else
    match FSlot.at a with
    | some s => slotBytes E w s.level (.fil f s) (a - s.base)
    | none => 0

theorem fileBytes_inl (w : World) (f : ℕ) {a : ℕ} (h : a < 4096) :
    fileBytes E w f a = byteAt (w.fil f).inl a := by
  simp [fileBytes, h]

theorem fileBytes_slot (w : World) (f : ℕ) {s : FSlot} {o : ℕ} (ho : o < span s.level) :
    fileBytes E w f (s.base + o) = slotBytes E w s.level (.fil f s) o := by
  have hb := s.base_ge
  have h : ¬ s.base + o < 4096 := by omega
  have ht := s.top_eq
  rw [fileBytes, if_neg h, FSlot.at_eq (s := s) (by omega) (by omega)]
  simp only [Nat.add_sub_cancel_left]

theorem fileBytes_beyond (w : World) (f : ℕ) {a : ℕ} (h : maxSize ≤ a) : fileBytes E w f a = 0 := by
  have hm := maxSize_eq
  rw [fileBytes, if_neg (by omega)]
  simp [FSlot.at, show ¬ a < 4096 by omega, show ¬ a < 167936 by omega,
    show ¬ a < 2265088 by omega, show ¬ a < 539136000 by omega, Nat.not_lt.2 h]

/-- Two worlds in which a file has the same bytes. -/
theorem fileBytes_congr {w w' : World} {f : ℕ} (hinl : (w'.fil f).inl = (w.fil f).inl)
    (hslot : ∀ (s : FSlot) o, o < span s.level →
      slotBytes E w' s.level (.fil f s) o = slotBytes E w s.level (.fil f s) o) (a : ℕ) :
    fileBytes E w' f a = fileBytes E w f a := by
  rcases Nat.lt_or_ge a 4096 with h | h
  · rw [fileBytes_inl w' f h, fileBytes_inl w f h, hinl]
  rcases Nat.lt_or_ge a maxSize with h' | h'
  · obtain ⟨s, h₁, h₂⟩ := FSlot.exists_at h h'
    obtain ⟨o, rfl⟩ := Nat.exists_eq_add_of_le h₁
    have ho : o < span s.level := by
      rw [s.top_eq] at h₂
      omega
    rw [fileBytes_slot w' f ho, fileBytes_slot w f ho, hslot s o ho]
  · rw [fileBytes_beyond w' f h', fileBytes_beyond w f h']

/-! ### The order of the visits -/

/-- The reference fields in the list follow each other from the offset `b` to the end of the file. -/
def Consecutive : ℕ → List FSlot → Prop
  | b, [] => b = maxSize
  | b, s :: l => s.base = b ∧ Consecutive s.top l

section order

variable {f fsz : ℕ} {t : Traversal V} {wr : ℕ → UInt8 → UInt8}
  {sem : (ℕ → UInt8) → ℕ → ℕ → V → V} {c : ℕ → UInt8} {J : ℕ → World → Prop}
  {F : Exn → World → Prop} (hlaws : VisitLaws t fsz wr sem)
  (hskip : ∀ b b' w, J b w → b ≤ b' → Boundary b → b' ≤ t.rngoff ∨ t.rngend ≤ b → J b' w)
  (hstep : ∀ (s : FSlot) (v : V) (w : World), J s.base w → t.rngoff < s.top → s.base < t.rngend →
    wp (traverseSlot E t (rbTraverse E t s.level) s.level (.fil f s) s.base v)
      (fun v' w' => J s.top w' ∧ v' = sem c s.base s.top v) F w)

include hlaws hskip hstep

/-- The direct references. -/
theorem wp_traverseDir (v : V) {w : World} (hJ : J 4096 w) :
    wp (traverseDir E t f v) (fun v' w' => J 167936 w' ∧ v' = sem c 4096 167936 v) F w := by
  refine wp_mono (wp_traverseLoop (N := 20)
    (I := fun k v' w' => J (4096 + k * 8192) w' ∧ v' = sem c 4096 (4096 + k * 8192) v) (F := F) ?_ 20 0
      v w rfl ⟨hJ, (hlaws.sem_nil c _ v).symm⟩) ?_ (fun _ _ hF => hF)
  · rintro i v₁ w₁ hi hbeyond ⟨hJ₁, hv₁⟩
    have hfin : Fin.ofNat 20 i = ⟨i, hi⟩ := Fin.ext (Nat.mod_eq_of_lt hi)
    have htop : (FSlot.dir ⟨i, hi⟩).top = 4096 + (i + 1) * 8192 := by
      rw [FSlot.top_dir]
      simp only
      omega
    simp only [hfin]
    split
    case isTrue hrng =>
      have hbase : (FSlot.dir ⟨i, hi⟩).base < t.rngend := by
        rw [FSlot.base_dir]
        simpa using hbeyond
      refine wp_mono (hstep (.dir ⟨i, hi⟩) v₁ w₁ hJ₁ hrng hbase) ?_ (fun _ _ hF => hF)
      rintro v₂ w₂ ⟨hJ₂, hv₂⟩
      rw [htop] at hJ₂ hv₂
      refine ⟨hJ₂, ?_⟩
      rw [hv₂, hv₁]
      exact hlaws.sem_append c 4096 (4096 + i * 8192) _ v (by omega) (by omega)
    case isFalse hrng =>
      have hout : 4096 + (i + 1) * 8192 ≤ t.rngoff := by omega
      have hle : 4096 + i * 8192 ≤ 4096 + (i + 1) * 8192 :=
        Nat.add_le_add_left (Nat.mul_le_mul_right _ (Nat.le_succ i)) _
      have hout' := hle.trans hout
      refine ⟨hskip (4096 + i * 8192) _ w₁ hJ₁ hle (.dir hi.le) (.inl hout), ?_⟩
      rw [hv₁, hlaws.sem_out c 4096 (4096 + (i + 1) * 8192) v (.inl hout),
        hlaws.sem_out c 4096 (4096 + i * 8192) v (.inl hout')]
  · rintro v₁ w₁ ⟨k, -, hk, hend, hJ₁, hv₁⟩
    rcases hend with rfl | hb
    · exact ⟨hJ₁, hv₁⟩
    · have hout : t.rngend ≤ 4096 + k * 8192 := by simpa using hb
      refine ⟨hskip _ _ w₁ hJ₁ (by omega) (.dir hk) (.inr hout), ?_⟩
      have happ := hlaws.sem_append c 4096 (4096 + k * 8192) 167936 v (by omega) (by omega)
      rw [hlaws.sem_out c _ _ _ (.inr hout)] at happ
      exact hv₁.trans happ

/-- The indirect references; a range beyond the last one is an error. -/
theorem wp_traverseInd
    (hfail : ∀ w, maxSize < t.rngend → J maxSize w →
      F (.internalError "more indirect block traversal implementation required") w) :
    ∀ (l : List FSlot) (b : ℕ) (v : V) (w : World), Consecutive b l → b < t.rngend → J b w →
      wp (traverseInd E t f l v) (fun v' w' => J maxSize w' ∧ v' = sem c b maxSize v) F w := by
  intro l
  induction l with
  | nil =>
      rintro b v w rfl hlt hJ
      exact hfail w hlt hJ
  | cons s l ih =>
      rintro b v w ⟨rfl, hl⟩ hlt hJ
      have htop := s.top_eq
      have hle := s.top_le
      -- What happens after the reference field has been visited or passed over.
      have hnext : ∀ v₁ w₁, J s.top w₁ → v₁ = sem c s.base s.top v →
          wp (if t.rngend ≤ s.top then pure v₁ else traverseInd E t f l v₁)
            (fun v' w' => J maxSize w' ∧ v' = sem c s.base maxSize v) F w₁ := by
        intro v₁ w₁ hJ₁ hv₁
        have happ := hlaws.sem_append c s.base s.top maxSize v (by omega) hle
        split
        case isTrue hend =>
          refine ⟨hskip _ _ w₁ hJ₁ hle (.top s) (.inr hend), ?_⟩
          rw [hlaws.sem_out c _ _ _ (.inr hend)] at happ
          exact hv₁.trans happ
        case isFalse hend =>
          refine wp_mono (ih s.top v₁ w₁ hl (by omega) hJ₁) ?_ (fun _ _ hF => hF)
          rintro v₂ w₂ ⟨hJ₂, hv₂⟩
          exact ⟨hJ₂, by rw [hv₂, hv₁, happ]⟩
      rw [traverseInd]
      split
      case isTrue hrng =>
        refine wp_seq (hstep s v w hJ hrng hlt) ?_ (fun _ _ hF => hF)
        rintro v₁ w₁ ⟨hJ₁, hv₁⟩
        exact hnext v₁ w₁ hJ₁ hv₁
      case isFalse hrng =>
        have hout : s.top ≤ t.rngoff := by omega
        refine hnext v w (hskip _ _ w hJ (by omega) (.base s) (.inl hout)) ?_
        exact (hlaws.sem_out c _ _ v (.inl hout)).symm

/-- All references of a file. -/
theorem wp_traverseRefs
    (hfail : ∀ w, maxSize < t.rngend → J maxSize w →
      F (.internalError "more indirect block traversal implementation required") w)
    (v : V) {w : World} (hJ : J 4096 w) :
    wp (traverseRefs E t f v) (fun v' w' => J maxSize w' ∧ v' = sem c 4096 maxSize v) F w := by
  have hm := maxSize_eq
  have hcons : Consecutive 167936 [.sin, .din, .tin] :=
    ⟨rfl, FSlot.top_sin.symm, FSlot.top_din.symm, FSlot.top_tin⟩
  have hnext : ∀ v₁ w₁, J 167936 w₁ → v₁ = sem c 4096 167936 v →
      wp (if t.rngend ≤ 167936 then pure v₁ else traverseInd E t f [.sin, .din, .tin] v₁)
        (fun v' w' => J maxSize w' ∧ v' = sem c 4096 maxSize v) F w₁ := by
    intro v₁ w₁ hJ₁ hv₁
    have happ := hlaws.sem_append c 4096 167936 maxSize v (by omega) (by omega)
    split
    case isTrue hend =>
      refine ⟨hskip _ _ w₁ hJ₁ (by omega) (.dir (k := 20) (Nat.le_refl _)) (.inr hend), ?_⟩
      rw [hlaws.sem_out c _ _ _ (.inr hend)] at happ
      exact hv₁.trans happ
    case isFalse hend =>
      refine wp_mono (wp_traverseInd hlaws hskip hstep hfail _ 167936 v₁ w₁ hcons (by omega) hJ₁) ?_
        (fun _ _ hF => hF)
      rintro v₂ w₂ ⟨hJ₂, hv₂⟩
      exact ⟨hJ₂, by rw [hv₂, hv₁, happ]⟩
  rw [traverseRefs]
  by_cases hend : t.rngend ≤ 4096
  · rw [if_pos hend]
    refine ⟨hskip _ _ w hJ (by omega) (.dir (k := 0) (by omega)) (.inr hend), ?_⟩
    exact (hlaws.sem_out c _ _ v (.inr hend)).symm
  · rw [if_neg hend]
    by_cases hoff : 167936 ≤ t.rngoff
    · rw [if_pos hoff]
      refine hnext v w (hskip _ _ w hJ (by omega) (.dir (k := 0) (by omega)) (.inl hoff)) ?_
      exact (hlaws.sem_out c _ _ v (.inl hoff)).symm
    · rw [if_neg hoff]
      refine wp_seq (wp_traverseDir hlaws hskip hstep v hJ) ?_ (fun _ _ hF => hF)
      rintro v₁ w₁ ⟨hJ₁, hv₁⟩
      exact hnext v₁ w₁ hJ₁ hv₁

end order

/-! ### Traversals that change the file -/

/-- The slots of a file. -/
def filSlots (f : ℕ) : Set Slot := {s | ∃ a, s = .fil f a}

/-- The reference fields below the offset `b` have been visited. -/
structure FileVisited (E : Env) (f : ℕ) (t : Traversal V) (wr : ℕ → UInt8 → UInt8) (w : World) (b : ℕ)
    (w' : World) : Prop where
  inv : BInv E ∅ w'
  frame : Frame E f ∅ ∅ (filSlots f) w w'
  refs : ∀ s, (w'.fil f).refs s = (w.fil f).refs s
  done : ∀ s : FSlot, s.top ≤ b → ∀ o < span s.level,
    slotBytes E w' s.level (.fil f s) o = wr (s.base + o) (slotBytes E w s.level (.fil f s) o)
  todo : ∀ s : FSlot, b ≤ s.base → ∀ o < span s.level,
    slotBytes E w' s.level (.fil f s) o = slotBytes E w s.level (.fil f s) o
  quiet : (w'.fil f).isdirty = false → (w.fil f).isdirty = false ∧ t.Misses 4096 b ∧
    ∀ (s : FSlot), ∀ o < span s.level,
      slotBytes E w' s.level (.fil f s) o = slotBytes E w s.level (.fil f s) o

section file

variable {f : ℕ} {t : Traversal V} {wr : ℕ → UInt8 → UInt8} {sem : (ℕ → UInt8) → ℕ → ℕ → V → V}
  {w w' : World}

theorem FileVisited.start (h : BInv E ∅ w) : FileVisited E f t wr w 4096 w where
  inv := h
  frame := .refl h (by simp)
  refs _ := rfl
  done s hs := by
    have h₁ := s.base_ge
    have h₂ := s.top_eq
    have h₃ := span_pos s.level
    omega
  todo _ _ _ _ := rfl
  quiet hd := ⟨hd, fun a h₁ h₂ => by omega, fun _ _ _ => rfl⟩

/-- Reference fields out of the range count as visited. -/
theorem FileVisited.skip {fsz b b' : ℕ} (hlaws : VisitLaws t fsz wr sem)
    (h : FileVisited E f t wr w b w') (hb : b ≤ b')
    (hall : ∀ s : FSlot, s.top ≤ b ∨ b ≤ s.base) (hout : b' ≤ t.rngoff ∨ t.rngend ≤ b) :
    FileVisited E f t wr w b' w' where
  inv := h.inv
  frame := h.frame
  refs := h.refs
  done s hs o ho := by
    rcases hall s with hs' | hs'
    · exact h.done s hs' o ho
    · rw [h.todo s hs' o ho, hlaws.wr_out]
      have := s.top_eq
      omega
  todo s hs := h.todo s (hb.trans hs)
  quiet hd := by
    obtain ⟨hd₀, hmiss, hq⟩ := h.quiet hd
    exact ⟨hd₀, hmiss.append (Traversal.misses_of_out hout), hq⟩

theorem FileVisited.slotIn {b : ℕ} (h : FileVisited E f t wr w b w') (hf : f < w.nfil) (s : FSlot) :
    SlotIn E f ∅ w' s.level (.fil f s) where
  inv := h.inv
  live := by
    have := outer_nfil h.frame.outer
    simp only [World.Live, this]
    exact hf
  owner := trivial
  ofFile := rfl
  levelEq := rfl
  above := by simp

/-- One more reference field has been visited. -/
theorem FileVisited.step {s : FSlot} {w₁ w₂ : World} (hf : f < w.nfil)
    (h : FileVisited E f t wr w s.base w₁) (hw : Wrote E f ∅ t wr w₁ s.level (.fil f s) s.base w₂) :
    FileVisited E f t wr w s.top w₂ := by
  have hslot := h.slotIn hf
  have hne : ∀ {s' : FSlot}, s' ≠ s → Slot.fil f s' ∉ ({.fil f s} : Set Slot) := by
    intro s' hs hmem
    exact hs (by simpa using hmem)
  have hother : ∀ s' : FSlot, s' ≠ s → ∀ o,
      slotBytes E w₂ s'.level (.fil f s') o = slotBytes E w₁ s'.level (.fil f s') o :=
    fun s' hs o => hw.frame.bytes (.fil f s') (hslot s').live trivial (hne hs) (by simp) o
  refine ⟨hw.inv, h.frame.trans (hw.frame.mono (fun _ h => h) (fun _ h => h) ?_), ?_, ?_, ?_, ?_⟩
  · rintro s' - rfl
    exact ⟨s, rfl⟩
  · intro s'
    by_cases hs : s' = s
    · subst hs
      exact hw.ref.trans (h.refs s')
    · exact (hw.frame.slots (.fil f s') (hslot s').live trivial (hne hs)).2.trans (h.refs s')
  · intro s' hs' o ho
    by_cases hs : s' = s
    · subst hs
      rw [hw.bytes o ho, h.todo s' (Nat.le_refl _) o ho]
    · rw [hother s' hs o]
      refine h.done s' ?_ o ho
      have h₁ := s.top_eq
      have h₂ := s'.top_eq
      have h₃ := span_pos s'.level
      rcases FSlot.top_le_base hs with h₄ | h₄
      · exact h₄
      · omega
  · intro s' hs' o ho
    have hs : s' ≠ s := by
      rintro rfl
      have h₁ := s'.top_eq
      have h₂ := span_pos s'.level
      omega
    rw [hother s' hs o]
    have h₁ := s.top_eq
    exact h.todo s' (by omega) o ho
  · intro hd
    have hd₁ : (w₁.fil f).isdirty = false := by
      cases hc : (w₁.fil f).isdirty with
      | false => rfl
      | true =>
          rw [hw.frame.filDirty hc] at hd
          simp at hd
    obtain ⟨hd₀, hmiss, hq⟩ := h.quiet hd₁
    obtain ⟨hmiss', hsame⟩ : t.Misses s.base (s.base + span s.level) ∧ ∀ o < span s.level,
        slotBytes E w₂ s.level (.fil f s) o = slotBytes E w₁ s.level (.fil f s) o := by
      rcases hw.quiet with hown | hquiet
      · have : (w₂.fil f).isdirty = true := hown
        rw [hd] at this
        simp at this
      · exact hquiet
    refine ⟨hd₀, hmiss.append hmiss', ?_⟩
    intro s' o ho
    by_cases hs : s' = s
    · subst hs
      rw [hsame o ho, hq s' o ho]
    · rw [hother s' hs o, hq s' o ho]

/-- The visit of a reference field that reaches into the range. -/
theorem wp_fileSlot (ht : t.modifyX = true) (hfn : t.fn = f)
    (hlaws : VisitLaws t (w.fil f).inode.size wr sem) (hf : f < w.nfil) {s : FSlot} {w₁ : World}
    (h : FileVisited E f t wr w s.base w₁) (hrng : t.rngoff < s.top) (v : V) :
    wp (traverseSlot E t (rbTraverse E t s.level) s.level (.fil f s) s.base v)
      (fun v' w' => FileVisited E f t wr w s.top w' ∧ v' = sem (fileBytes E w f) s.base s.top v)
      (fun _ _ => False) w₁ := by
  have hsize := h.frame.size f
  refine wp_mono (wp_traverseSlot ht hfn (by rw [hsize]; exact hlaws) (h.slotIn hf s) v ?_) ?_
    (fun _ _ hF => hF)
  · intro n w₂ hin hsize₂
    exact wp_rbTraverse ht hfn s.level ∅ w₂ n s.base v (by rw [hsize₂, hsize]; exact hlaws) hin hrng
  · rintro v' w₂ ⟨hw, hv⟩
    refine ⟨h.step hf hw, hv.trans (hlaws.sem_congr _ _ _ _ _ ?_)⟩
    intro a h₁ h₂
    have ho : a - s.base < span s.level := by omega
    have ha : s.base + (a - s.base) = a := by omega
    rw [h.todo s (Nat.le_refl _) _ ho, ← fileBytes_slot w f ho, ha]

/-- What the visit of the inline data does. -/
structure InlVisited (E : Env) (f : ℕ) (t : Traversal V) (wr : ℕ → UInt8 → UInt8) (w w' : World) : Prop where
  inv : BInv E ∅ w'
  frame : ∃ inl isdirty, w' = w.setFil f { w.fil f with inl := inl, isdirty := isdirty }
  bytes : ∀ a < 4096, byteAt (w'.fil f).inl a = wr a (byteAt (w.fil f).inl a)
  quiet : (w'.fil f).isdirty = false →
    (w.fil f).isdirty = false ∧ t.Misses 0 4096 ∧ (w'.fil f).inl = (w.fil f).inl

theorem traverseInl_run (w : World) (v : V) :
    traverseInl t f v w =
      if t.rngoff < 4096 then
        let r := t.btVisit v 4096 (w.fil f).inl 0 (w.fil f).inode.size
        .ok r.2.1 (w.setFil f { w.fil f with
          inl := r.2.2, isdirty := if r.1 then true else (w.fil f).isdirty })
      else .ok v w := by
  have hset : ∀ x y, (w.setFil f x).setFil f y = w.setFil f y := by
    intro x y
    simp [World.setFil]
  by_cases h : t.rngoff < 4096
  · simp only [traverseInl, h, if_true]
    cases hr : (t.btVisit v 4096 (w.fil f).inl 0 (w.fil f).inode.size).1 with
    | true =>
        simp only [bind_apply, get_apply, set_apply, hr, if_true, setFilDirty, modify_apply, pure_apply,
          hset, setFil_self]
    | false =>
        simp only [bind_apply, get_apply, set_apply, hr, Bool.false_eq_true, if_false, pure_apply]
  · simp only [traverseInl, h, if_false]
    rfl

theorem wp_traverseInl (ht : t.modifyX = true) (hlaws : VisitLaws t (w.fil f).inode.size wr sem) (h : BInv E ∅ w) (v : V)
    {F : Exn → World → Prop} :
    wp (traverseInl t f v)
      (fun v' w' => InlVisited E f t wr w w' ∧ v' = sem (fileBytes E w f) 0 4096 v) F w := by
  rw [wp, traverseInl_run]
  split
  case h_1 heq =>
    by_cases hrng : t.rngoff < 4096
    · rw [if_pos hrng] at heq
      have hdata := hlaws.data v 4096 (w.fil f).inl 0
      have hquiet := hlaws.quiet v 4096 (w.fil f).inl 0
      have hloud := hlaws.loud ht v 4096 (w.fil f).inl 0
      have hstate : (t.btVisit v 4096 (w.fil f).inl 0 (w.fil f).inode.size).2.1 =
          sem (fileBytes E w f) 0 4096 v := by
        refine hlaws.state v 4096 _ 0 _ ?_
        intro j
        rw [Nat.zero_add, fileBytes_inl w f j.2]
        simp only [byteAt, j.2, dif_pos]
      generalize t.btVisit v 4096 (w.fil f).inl 0 (w.fil f).inode.size = r at hdata hquiet hloud hstate heq
      injection heq with hv hw
      subst hw hv
      have hs : SameShape w (w.setFil f { w.fil f with
          inl := r.2.2, isdirty := if r.1 then true else (w.fil f).isdirty }) := .setFil w rfl rfl
      refine ⟨⟨h.sameShape hs (fun _ => .inl rfl) (fun _ _ _ => rfl), ⟨_, _, rfl⟩, ?_, ?_⟩, hstate⟩
      · intro a ha
        rw [setFil_self]
        simp only [byteAt, ha, dif_pos, hdata, Nat.zero_add]
      · rw [setFil_self]
        cases hr : r.1 with
        | true => simp
        | false => exact fun hd => ⟨by simpa using hd, hloud hr, hquiet hr⟩
    · rw [if_neg hrng] at heq
      injection heq with hv hw
      subst hw hv
      refine ⟨⟨h, ⟨(w.fil f).inl, (w.fil f).isdirty, by simp [World.setFil]⟩, ?_,
        fun hd => ⟨hd, Traversal.misses_of_out (.inl (by omega)), rfl⟩⟩, ?_⟩
      · intro a ha
        rw [hlaws.wr_out _ _ (.inl (by omega))]
      · exact (hlaws.sem_out _ _ _ v (.inl (by omega))).symm
  case h_2 heq =>
    split at heq <;> simp at heq

/-- **What a traversal that changes the file does.** -/
structure FileWrote (E : Env) (f : ℕ) (t : Traversal V) (wr : ℕ → UInt8 → UInt8) (w w' : World) : Prop where
  inv : BInv E ∅ w'
  outer : w'.outer = w.outer
  nblk : w.nblk ≤ w'.nblk
  cacheFil : SameFil w.cache w'.cache
  other : ∀ g, g ≠ f → w'.fil g = w.fil g
  own : w'.fil f = { w.fil f with
    isdirty := (w'.fil f).isdirty, inl := (w'.fil f).inl, objs := (w'.fil f).objs,
    inode := { (w.fil f).inode with blocks := (w'.fil f).inode.blocks } }
  otherBytes : ∀ g, g ≠ f → g < w.nfil → ∀ a, fileBytes E w' g a = fileBytes E w g a
  bytes : ∀ a, a < maxSize → fileBytes E w' f a = wr a (fileBytes E w f a)
  quiet : (w'.fil f).isdirty = false → (w.fil f).isdirty = false ∧ t.Misses 0 maxSize ∧
    (w'.fil f).inl = (w.fil f).inl ∧ ∀ a, fileBytes E w' f a = fileBytes E w f a

/-- All parts of the file have been visited. -/
theorem FileVisited.fileWrote {w₁ w₂ : World} (h₁ : InlVisited E f t wr w w₁)
    (h₂ : FileVisited E f t wr w₁ maxSize w₂) : FileWrote E f t wr w w₂ := by
  obtain ⟨inl, isdirty, rfl⟩ := h₁.frame
  generalize hw₁ : w.setFil f { w.fil f with inl := inl, isdirty := isdirty } = w₁ at h₁ h₂
  have hfil : w₁.fil f = { w.fil f with inl := inl, isdirty := isdirty } := by rw [← hw₁, setFil_self]
  have hother : ∀ g, g ≠ f → w₁.fil g = w.fil g := fun g hg => by rw [← hw₁, setFil_of_ne w _ hg]
  have hblk : w₁.blk = w.blk := by rw [← hw₁]; rfl
  have hout : w₁.outer = w.outer := by rw [← hw₁]; rfl
  have hslot₁ : ∀ g (s : FSlot) o,
      slotBytes E w₁ s.level (.fil g s) o = slotBytes E w s.level (.fil g s) o := by
    intro g s o
    have hsh : SameShape w w₁ := by rw [← hw₁]; exact .setFil w rfl rfl
    simp only [slotBytes, hsh.slotObj, hsh.slotRef, hsh.log]
    cases w.slotObj (.fil g s) with
    | none => rfl
    | some c => exact blkBytes_congr hblk hsh.log s.level c o
  have hown := h₂.frame.own
  have hinl₂ : (w₂.fil f).inl = (w₁.fil f).inl := by rw [hown]
  refine ⟨h₂.inv, h₂.frame.outer.trans hout, ?_, ?_, ?_, ?_, ?_, ?_, ?_⟩
  · have : w₁.nblk = w.nblk := by rw [← hw₁]; rfl
    rw [← this]
    exact h₂.frame.nblk
  · have : w₁.cache = w.cache := by rw [← hw₁]; rfl
    rw [← this]
    exact h₂.frame.cacheFil
  · intro g hg
    rw [h₂.frame.other g hg, hother g hg]
  · have hrefs : (w₂.fil f).refs = (w.fil f).refs := by
      funext s
      rw [h₂.refs s, hfil]
    rw [hown]
    simp only [hfil, hrefs]
  · intro g hg hlt a
    refine fileBytes_congr (by rw [h₂.frame.other g hg, hother g hg]) ?_ a
    intro s o _
    rw [← hslot₁ g s o]
    refine h₂.frame.bytes (.fil g s) ?_ trivial ?_ (by simp) o
    · have := outer_nfil hout
      simp only [World.Live, this]
      exact hlt
    · rintro ⟨s', hs⟩
      injection hs with hgf
      exact hg hgf
  · intro a ha
    rcases Nat.lt_or_ge a 4096 with h | h
    · rw [fileBytes_inl _ f h, fileBytes_inl w f h, hinl₂]
      exact h₁.bytes a h
    · obtain ⟨s, hs₁, hs₂⟩ := FSlot.exists_at h ha
      obtain ⟨o, rfl⟩ := Nat.exists_eq_add_of_le hs₁
      have ho : o < span s.level := by
        rw [s.top_eq] at hs₂
        omega
      rw [fileBytes_slot _ f ho, fileBytes_slot w f ho, h₂.done s s.top_le o ho, hslot₁]
  · intro hd
    obtain ⟨hd₁, hmiss, hq⟩ := h₂.quiet hd
    obtain ⟨hd₀, hmiss', hi⟩ := h₁.quiet hd₁
    refine ⟨hd₀, hmiss'.append hmiss, hinl₂.trans hi, fileBytes_congr (hinl₂.trans hi) ?_⟩
    intro s o ho
    rw [hq s o ho, hslot₁]

/-- **`FileNode::rb_traverse` with `RB_MODIFY_X`.**  It fails when the range goes beyond the largest
file, after everything before has been visited. -/
theorem wp_rbTraverseFile (ht : t.modifyX = true) (hfn : t.fn = f)
    (hlaws : VisitLaws t (w.fil f).inode.size wr sem) (h : BInv E ∅ w) (hf : f < w.nfil) (v : V) :
    wp (rbTraverseFile E t f v)
      (fun r w' => FileWrote E f t wr w w' ∧ r.1 = (w'.fil f).isdirty ∧
        r.2 = sem (fileBytes E w f) 0 maxSize v)
      (fun e w' => maxSize < t.rngend ∧ FileWrote E f t wr w w' ∧
        e = .internalError "more indirect block traversal implementation required") w := by
  have hm := maxSize_eq
  rw [rbTraverseFile]
  refine wp_seq (wp_traverseInl ht hlaws h v (F := fun _ _ => False)) ?_ (fun _ _ hF => hF.elim)
  rintro v₁ w₁ ⟨hinl, hv₁⟩
  obtain ⟨inl, isdirty, hw₁⟩ := hinl.frame
  have hfil : w₁.fil f = { w.fil f with inl := inl, isdirty := isdirty } := by rw [hw₁, setFil_self]
  have hsize : (w₁.fil f).inode.size = (w.fil f).inode.size := by rw [hfil]
  have hlaws₁ : VisitLaws t (w₁.fil f).inode.size wr sem := by rw [hsize]; exact hlaws
  have hf₁ : f < w₁.nfil := by rw [hw₁]; exact hf
  -- From the inline data on the two worlds have the same bytes.
  have hbytes : ∀ a, 4096 ≤ a → fileBytes E w₁ f a = fileBytes E w f a := by
    intro a ha
    have hsh : SameShape w w₁ := by rw [hw₁]; exact .setFil w rfl rfl
    have hblk : w₁.blk = w.blk := by rw [hw₁]; rfl
    simp only [fileBytes, if_neg (Nat.not_lt.2 ha)]
    cases FSlot.at a with
    | none => rfl
    | some s =>
        simp only [slotBytes, hsh.slotObj, hsh.slotRef, hsh.log]
        cases w.slotObj (.fil f s) with
        | none => rfl
        | some c => exact blkBytes_congr hblk hsh.log s.level c _
  refine wp_seq (wp_traverseRefs (c := fileBytes E w₁ f) (J := FileVisited E f t wr w₁) hlaws₁ ?_ ?_
    (fun w₂ hlt h₂ => ⟨hlt, h₂.fileWrote hinl, rfl⟩) v₁ (.start hinl.inv)) ?_ (fun _ _ hF => hF)
  · intro b b' w₂ h₂ hb hbd hout
    exact h₂.skip hlaws₁ hb hbd hout
  · intro s v₂ w₂ h₂ hrng _
    exact wp_mono (wp_fileSlot ht hfn hlaws₁ hf₁ h₂ hrng v₂) (fun _ _ hQ => hQ) (fun _ _ hF => hF.elim)
  · rintro v₂ w₂ ⟨h₂, hv₂⟩
    refine ⟨h₂.fileWrote hinl, rfl, ?_⟩
    rw [show ((w₂.fil f).isdirty, v₂).2 = v₂ from rfl, hv₂,
      hlaws.sem_congr _ (fileBytes E w f) _ _ _ (fun a ha _ => hbytes a ha), hv₁,
      hlaws.sem_append _ _ _ _ _ (by omega) (by omega)]

end file

end UTFS

end Utopfs
