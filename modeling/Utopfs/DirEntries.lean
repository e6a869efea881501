/-
**The two collections of a directory.**

The entries of a directory are a list of names and references; the dirty nodes are a list of names and
nodes.  What counts of either is which value a name has, `List.lookup`.

Main results:

* `UTFS.lookup_eq_some_iff_mem` — the value of a name, where names are distinct;
* `UTFS.lookup_dirSet`, `UTFS.names_dirSet` — `DirNode::update` of a reference;
* `UTFS.dirRemove_perm`, `UTFS.lookup_dirRemove` — `DirNode::remove` takes away one entry, whatever
  order it leaves the others in;
* `UTFS.lookup_dirtyInsert`, `UTFS.lookup_dirtyErase` — the dirty nodes.
-/

import Utopfs.DirNode
import Mathlib.Tactic

set_option relaxedAutoImplicit false
set_option autoImplicit false

namespace Utopfs

namespace UTFS

variable {V : Type}

/-! ### The value of a name -/

theorem mem_of_lookup {l : List (Str × V)} {n : Str} {v : V} (h : l.lookup n = some v) :
    (n, v) ∈ l := by
  rw [List.lookup_eq_some_iff] at h
  obtain ⟨l₁, l₂, rfl, -⟩ := h
  simp

theorem lookup_eq_none_iff_notMem {l : List (Str × V)} {n : Str} :
    l.lookup n = none ↔ n ∉ l.map Prod.fst := by
  rw [List.lookup_eq_none_iff]
  constructor
  · intro h hmem
    obtain ⟨e, he, rfl⟩ := List.mem_map.1 hmem
    simpa using h e he
  · intro h e he
    have : n ≠ e.1 := by
      rintro rfl
      exact h (List.mem_map_of_mem he)
    simpa using this

theorem exists_lookup_of_mem {l : List (Str × V)} {n : Str} (h : n ∈ l.map Prod.fst) :
    ∃ v, l.lookup n = some v := by
  cases hl : l.lookup n with
  | none => exact absurd h (lookup_eq_none_iff_notMem.1 hl)
  | some v => exact ⟨v, rfl⟩

theorem mem_names_of_lookup {l : List (Str × V)} {n : Str} {v : V} (h : l.lookup n = some v) :
    n ∈ l.map Prod.fst := List.mem_map_of_mem (mem_of_lookup h)

/-- The value of a name, where names are distinct. -/
theorem lookup_eq_some_iff_mem {l : List (Str × V)} (hnd : (l.map Prod.fst).Nodup) {n : Str} {v : V} :
    l.lookup n = some v ↔ (n, v) ∈ l := by
  refine ⟨mem_of_lookup, fun h => ?_⟩
  obtain ⟨v', hv'⟩ := exists_lookup_of_mem (List.mem_map_of_mem (f := Prod.fst) h)
  have heq := List.inj_on_of_nodup_map hnd (mem_of_lookup hv') h rfl
  rw [hv', (Prod.mk.inj heq).2]

/-- The order does not count. -/
theorem lookup_perm {l l' : List (Str × V)} (hnd : (l.map Prod.fst).Nodup) (hp : l.Perm l') (n : Str) :
    l'.lookup n = l.lookup n := by
  have hnd' : (l'.map Prod.fst).Nodup := (hp.map Prod.fst).nodup_iff.1 hnd
  cases hl : l.lookup n with
  | none =>
      rw [lookup_eq_none_iff_notMem] at hl ⊢
      exact fun h => hl ((hp.map Prod.fst).mem_iff.2 h)
  | some v =>
      rw [lookup_eq_some_iff_mem hnd', ← hp.mem_iff]
      exact mem_of_lookup hl

/-! ### Entries -/

theorem lookup_dirSet (e : Str) (r : BlockRef) (d : Directory) (n : Str) :
    (dirSet e r d).lookup n = if n = e then some r else d.lookup n := by
  induction d with
  | nil =>
      by_cases hn : n = e
      · simp [dirSet, hn]
      · have : ¬ (n == e) = true := by simpa using hn
        simp [dirSet, List.lookup_cons, this, hn]
  | cons x d ih =>
      obtain ⟨m, r'⟩ := x
      rw [dirSet]
      by_cases hm : m = e
      · subst hm
        rw [if_pos rfl]
        by_cases hn : n = m
        · simp [hn]
        · have : ¬ (n == m) = true := by simpa using hn
          simp [List.lookup_cons, this, hn]
      · rw [if_neg hm, List.lookup_cons, List.lookup_cons, ih]
        by_cases hn : n = m
        · subst hn
          simp [hm]
        · have : ¬ (n == m) = true := by simpa using hn
          simp [this]

theorem mem_dirSet {e : Str} {r : BlockRef} {d : Directory} {x : Str × BlockRef}
    (h : x ∈ dirSet e r d) : x ∈ d ∨ x = (e, r) := by
  induction d with
  | nil => exact .inr (by simpa [dirSet] using h)
  | cons y d ih =>
      obtain ⟨m, r'⟩ := y
      rw [dirSet] at h
      split at h
      case isTrue hm =>
        rcases List.mem_cons.1 h with rfl | h
        · exact .inr (by rw [hm])
        · exact .inl (List.mem_cons_of_mem _ h)
      case isFalse =>
        rcases List.mem_cons.1 h with rfl | h
        · exact .inl List.mem_cons_self
        · exact (ih h).imp_left (List.mem_cons_of_mem _)

theorem names_dirSet {e : Str} {d : Directory} (r : BlockRef) (h : e ∈ d.map Prod.fst) :
    (dirSet e r d).map Prod.fst = d.map Prod.fst := by
  induction d with
  | nil => simp at h
  | cons x d ih =>
      obtain ⟨m, r'⟩ := x
      rw [dirSet]
      by_cases hm : m = e
      · simp [hm]
      · have : e ∈ d.map Prod.fst := by simpa [Ne.symm hm] using h
        simp [hm, ih this]

theorem dirSet_of_notMem {e : Str} {d : Directory} (r : BlockRef) (h : e ∉ d.map Prod.fst) :
    dirSet e r d = d ++ [(e, r)] := by
  induction d with
  | nil => rfl
  | cons x d ih =>
      obtain ⟨m, r'⟩ := x
      have hm : m ≠ e := by
        rintro rfl
        simp at h
      have hd : e ∉ d.map Prod.fst := fun hmem => h (by simp [hmem])
      rw [dirSet, if_neg hm, ih hd, List.cons_append]

/-! ### Removing an entry -/

/-- The name is that of the last entry. -/
theorem dirRemove_last {e : Str} {l : Directory} (last : Str × BlockRef) (h : ∀ x ∈ l, x.1 ≠ e) :
    dirRemove e (l ++ [last]) = (.nil, l) := by
  have hi : l.findIdx? (fun x => decide (x.1 = e)) = none := by
    rw [List.findIdx?_eq_none_iff]
    intro x hx
    simpa using h x hx
  simp [dirRemove, hi]

/-- The last entry takes the place of the one with the name. -/
theorem dirRemove_middle {e : Str} {l₁ l₂ : Directory} {x : Str × BlockRef} (last : Str × BlockRef)
    (hx : x.1 = e) (h : ∀ y ∈ l₁, y.1 ≠ e) :
    dirRemove e (l₁ ++ x :: l₂ ++ [last]) = (x.2, l₁ ++ last :: l₂) := by
  have h₁ : l₁.findIdx? (fun y => decide (y.1 = e)) = none := by
    rw [List.findIdx?_eq_none_iff]
    intro y hy
    simpa using h y hy
  have hi : (l₁ ++ x :: l₂).findIdx? (fun y => decide (y.1 = e)) = some l₁.length := by
    rw [List.findIdx?_append, h₁, List.findIdx?_cons]
    simp [hx]
  have hdrop : (l₁ ++ x :: l₂ ++ [last]).dropLast = l₁ ++ x :: l₂ := List.dropLast_concat
  have hlast : (l₁ ++ x :: l₂ ++ [last]).getLast? = some last := List.getLast?_concat
  simp only [dirRemove, hdrop, hi, hlast]
  refine Prod.ext ?_ ?_
  · simp [List.getD]
  · simp
    rw [← List.cons_append, List.dropLast_concat]

/-- **One entry of the name is taken away**; its reference is found unless it is the last entry. -/
theorem dirRemove_perm {e : Str} {d : Directory} (h : e ∈ d.map Prod.fst) :
    ∃ x : Str × BlockRef, x.1 = e ∧ d.Perm (x :: (dirRemove e d).2) ∧
      ((dirRemove e d).1 = .nil ∨ (dirRemove e d).1 = x.2) := by
  rcases List.eq_nil_or_concat d with rfl | ⟨l, last, rfl⟩
  · simp at h
  rw [List.concat_eq_append] at h ⊢
  by_cases hl : ∀ x ∈ l, x.1 ≠ e
  · have hx : last.1 = e := by
      rw [List.map_append, List.mem_append] at h
      rcases h with h | h
      · obtain ⟨x, hx, hxe⟩ := List.mem_map.1 h
        exact absurd hxe (hl x hx)
      · rw [List.map_singleton, List.mem_singleton] at h
        exact h.symm
    rw [dirRemove_last last hl]
    exact ⟨last, hx, List.perm_append_singleton last l, .inl rfl⟩
  · have hex : ∃ x ∈ l, decide (x.1 = e) = true := by
      simpa using hl
    obtain ⟨y, hy, hye⟩ := hex
    obtain ⟨x, l₁, l₂, h₁, hx, rfl, -⟩ :=
      List.exists_of_eraseP (p := fun y : Str × BlockRef => decide (y.1 = e)) hy hye
    have hxe : x.1 = e := by simpa using hx
    rw [dirRemove_middle last hxe fun y hy => by simpa using h₁ y hy]
    refine ⟨x, hxe, ?_, .inr rfl⟩
    have hperm : (l₂ ++ [last]).Perm (last :: l₂) := List.perm_append_singleton last l₂
    calc (l₁ ++ x :: l₂ ++ [last] : Directory)
        = l₁ ++ x :: (l₂ ++ [last]) := by simp
      _ |>.Perm (x :: (l₁ ++ (l₂ ++ [last]))) := List.perm_middle
      _ |>.Perm (x :: (l₁ ++ last :: l₂)) := (hperm.append_left l₁).cons x

section remove

variable {e : Str} {d : Directory}

theorem mem_of_mem_dirRemove (h : e ∈ d.map Prod.fst) {x : Str × BlockRef}
    (hx : x ∈ (dirRemove e d).2) : x ∈ d := by
  obtain ⟨y, -, hp, -⟩ := dirRemove_perm h
  exact hp.mem_iff.2 (List.mem_cons_of_mem _ hx)

/-- The names that are left. -/
theorem names_dirRemove_perm (h : e ∈ d.map Prod.fst) :
    (d.map Prod.fst).Perm (e :: (dirRemove e d).2.map Prod.fst) := by
  obtain ⟨y, rfl, hp, -⟩ := dirRemove_perm h
  exact hp.map Prod.fst

theorem names_dirRemove_nodup (h : e ∈ d.map Prod.fst) (hnd : (d.map Prod.fst).Nodup) :
    ((dirRemove e d).2.map Prod.fst).Nodup ∧ e ∉ (dirRemove e d).2.map Prod.fst := by
  have := (names_dirRemove_perm h).nodup_iff.1 hnd
  rw [List.nodup_cons] at this
  exact ⟨this.2, this.1⟩

theorem lookup_dirRemove (h : e ∈ d.map Prod.fst) (hnd : (d.map Prod.fst).Nodup) (n : Str) :
    (dirRemove e d).2.lookup n = if n = e then none else d.lookup n := by
  by_cases hn : n = e
  · rw [if_pos hn, lookup_eq_none_iff_notMem, hn]
    exact (names_dirRemove_nodup h hnd).2
  · obtain ⟨y, hy, hp, -⟩ := dirRemove_perm h
    have : ¬ (n == y.1) = true := by simpa [hy] using hn
    rw [if_neg hn, ← lookup_perm hnd hp n, List.lookup_cons]
    simp [this]

/-- The reference that `remove` finds. -/
theorem ref_dirRemove (h : e ∈ d.map Prod.fst) (hnd : (d.map Prod.fst).Nodup)
    (hne : (dirRemove e d).1 ≠ .nil) : d.lookup e = some (dirRemove e d).1 := by
  obtain ⟨y, rfl, hp, hr⟩ := dirRemove_perm h
  rw [lookup_eq_some_iff_mem hnd, hr.resolve_left hne]
  exact hp.mem_iff.2 List.mem_cons_self

end remove

/-! ### Dirty nodes -/

theorem mem_dirtyInsert {e : Str} {f : ℕ} {l : List (Str × ℕ)} {x : Str × ℕ}
    (h : x ∈ dirtyInsert e f l) : x ∈ l ∨ x = (e, f) := by
  induction l with
  | nil => exact .inr (by simpa [dirtyInsert] using h)
  | cons y l ih =>
      obtain ⟨n, g⟩ := y
      rw [dirtyInsert] at h
      split at h
      · rcases List.mem_cons.1 h with rfl | h
        · exact .inr rfl
        · exact .inl h
      · split at h
        · exact .inl h
        · rcases List.mem_cons.1 h with rfl | h
          · exact .inl List.mem_cons_self
          · exact (ih h).imp_left (List.mem_cons_of_mem _)

/-- A name that has no other node gets the node. -/
theorem lookup_dirtyInsert {e : Str} {f : ℕ} {l : List (Str × ℕ)}
    (h : ∀ g, l.lookup e = some g → g = f) (n : Str) :
    (dirtyInsert e f l).lookup n = if n = e then some f else l.lookup n := by
  induction l with
  | nil =>
      by_cases hn : n = e
      · simp [dirtyInsert, hn]
      · have : ¬ (n == e) = true := by simpa using hn
        simp [dirtyInsert, List.lookup_cons, this, hn]
  | cons y l ih =>
      obtain ⟨m, g⟩ := y
      rw [dirtyInsert]
      split
      · by_cases hn : n = e
        · simp [hn]
        · have : ¬ (n == e) = true := by simpa using hn
          rw [List.lookup_cons]
          simp [this, hn]
      · split
        case isTrue hm =>
          subst hm
          have hg : g = f := h g (by simp)
          by_cases hn : n = m
          · simp [hn, hg]
          · simp [hn]
        case isFalse hm =>
          have he : ¬ (e == m) = true := by simpa using Ne.symm hm
          have hl : ∀ g, l.lookup e = some g → g = f := by
            intro g' hg'
            refine h g' ?_
            rw [List.lookup_cons]
            simpa [he] using hg'
          rw [List.lookup_cons, List.lookup_cons, ih hl]
          by_cases hn : n = m
          · subst hn
            simp [hm]
          · have : ¬ (n == m) = true := by simpa using hn
            simp [this]

theorem lookup_dirtyErase (e : Str) (l : List (Str × ℕ)) (n : Str) :
    (dirtyErase e l).lookup n = if n = e then none else l.lookup n := by
  induction l with
  | nil => simp [dirtyErase]
  | cons y l ih =>
      obtain ⟨m, g⟩ := y
      have hrec : dirtyErase e ((m, g) :: l) =
          if m = e then dirtyErase e l else (m, g) :: dirtyErase e l := by
        by_cases hm : m = e
        · simp [dirtyErase, hm]
        · simp [dirtyErase, hm]
      rw [hrec, List.lookup_cons]
      by_cases hm : m = e
      · subst hm
        rw [if_pos rfl, ih]
        by_cases hn : n = m
        · simp [hn]
        · have : ¬ (n == m) = true := by simpa using hn
          simp [hn, this]
      · rw [if_neg hm, List.lookup_cons, ih]
        by_cases hn : n = m
        · subst hn
          simp [hm]
        · have : ¬ (n == m) = true := by simpa using hn
          simp [this]

end UTFS

end Utopfs
