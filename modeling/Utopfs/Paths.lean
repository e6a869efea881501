/-
**Slashes in paths.**

The names in a path are its parts between slashes, and `DirNode::pathsplit` is meant to take several
slashes for one.  It does between two names.  A second slash at the start of the path makes the first
name empty, which the root directory takes for itself; and where the path ends in slashes, the first of
them stays in the last name, which no node has.

Main definitions:

* `UTFS.words` — the names in a path;
* `UTFS.Visits` — the names that the traversals look up;
* `UTFS.Plain` — paths with slashes before names only, and not two of them at the start.

Main results:

* `UTFS.components_spec` — the names in the remainder of a path;
* `UTFS.visits_iff` — the traversals visit the names in a path exactly if it is plain;
* `UTFS.not_visits_slashes` — what happens to other paths in a new file system.
-/

import Mathlib.Data.List.TakeWhile
import Mathlib.Tactic
import Utopfs.Messages
import Utopfs.UTFileSystem

set_option relaxedAutoImplicit false
set_option autoImplicit false

namespace Utopfs

namespace UTFS

open Prog

/-- The names in a path: its longest parts without slashes that are not empty. -/
def words (path : Str) : List Str := (path.splitOn slash).filter fun n => n ≠ []

/-! ### The names in a path -/

theorem words_append (a b : Str) : words (a ++ slash :: b) = words a ++ words b := by
  rw [words, List.splitOn_append_cons_self, List.filter_append]
  rfl

@[simp] theorem words_nil : words [] = [] := rfl

@[simp] theorem words_slash (path : Str) : words (slash :: path) = words path := words_append [] path

theorem words_name {n : Str} (hn : n ≠ []) (hslash : slash ∉ n) : words n = [n] := by
  rw [words, List.splitOn_eq_singleton hslash]
  simp [hn]

/-- Slashes at the start make no difference. -/
theorem words_dropWhile (path : Str) : words (path.dropWhile (· = slash)) = words path := by
  induction path with
  | nil => rfl
  | cons c path ih =>
      by_cases hc : c = slash
      · subst hc
        rw [List.dropWhile_cons_of_pos (by simp), ih, words_slash]
      · rw [List.dropWhile_cons_of_neg (by simpa using hc)]

/-- A path of slashes alone has no names. -/
theorem words_eq_nil {path : Str} (h : path.dropWhile (· = slash) = []) : words path = [] := by
  rw [← words_dropWhile, h, words_nil]

theorem nil_notMem_words (path : Str) : [] ∉ words path := by
  simp [words]

/-! ### What the traversals look up -/

/-- What `pathsplit` does with a path that starts with a slash. -/
theorem pathsplit_slash (path : Str) : pathsplit (slash :: path) =
    if path.dropWhile (· ≠ slash) = [] then pure (path.takeWhile (· ≠ slash), [])
    else if (path.dropWhile (· ≠ slash)).dropWhile (· = slash) = [] then
      pure (path.takeWhile (· ≠ slash) ++ [slash], [])
    else pure (path.takeWhile (· ≠ slash),
      slash :: (path.dropWhile (· ≠ slash)).dropWhile (· = slash)) := by
  rw [pathsplit, if_pos rfl]

/-- The names with a slash added to the last. -/
def slashed : List Str → List Str
  | [] => []
  | [n] => [n ++ [slash]]
  | n :: l => n :: slashed l

theorem slashed_cons {l : List Str} (hl : l ≠ []) (n : Str) : slashed (n :: l) = n :: slashed l := by
  cases l with
  | nil => exact absurd rfl hl
  | cons m l => rfl

/-- The first name of a path that starts with one, and what follows. -/
theorem split_name {path : Str} {c : UInt8} (hc : path.head? = some c) (hne : c ≠ slash) :
    ∃ name tail, path = name ++ tail ∧ name = path.takeWhile (· ≠ slash) ∧
      tail = path.dropWhile (· ≠ slash) ∧ name ≠ [] ∧ slash ∉ name := by
  refine ⟨_, _, (List.takeWhile_append_dropWhile ..).symm, rfl, rfl, ?_, fun hmem => ?_⟩
  · cases path with
    | nil => simp at hc
    | cons d path =>
        obtain rfl : d = c := by simpa using hc
        simp [hne]
  · have hall := List.all_takeWhile (l := path) (p := (· ≠ slash))
    simpa using List.all_eq_true.1 hall slash hmem

/-- What follows the first name is nothing, or starts with a slash. -/
theorem dropWhile_ne_slash (path : Str) : path.dropWhile (· ≠ slash) = [] ∨
    ∃ rest, path.dropWhile (· ≠ slash) = slash :: rest := by
  induction path with
  | nil => exact .inl rfl
  | cons c path ih =>
      by_cases hc : c = slash
      · subst hc
        exact .inr ⟨path, List.dropWhile_cons_of_neg (by simp)⟩
      · rw [List.dropWhile_cons_of_pos (by simpa using hc)]
        exact ih

theorem words_ne_nil {path : Str} {c : UInt8} (hc : path.head? = some c) (hne : c ≠ slash) :
    words path ≠ [] := by
  obtain ⟨name, tail, hpath, -, htail, hnil, hslash⟩ := split_name hc hne
  rcases dropWhile_ne_slash path with hend | ⟨rest, hrest⟩
  · rw [hpath, htail, hend, List.append_nil, words_name hnil hslash]
    simp
  · rw [hpath, htail, hrest, words_append, words_name hnil hslash]
    simp

/-- After the slashes comes nothing, or something else. -/
theorem dropWhile_eq_slash (path : Str) : path.dropWhile (· = slash) = [] ∨
    ∃ c, (path.dropWhile (· = slash)).head? = some c ∧ c ≠ slash := by
  induction path with
  | nil => exact .inl rfl
  | cons c path ih =>
      by_cases hc : c = slash
      · subst hc
        rwa [List.dropWhile_cons_of_pos (by simp)]
      · rw [List.dropWhile_cons_of_neg (by simpa using hc)]
        exact .inr ⟨c, rfl, hc⟩

/-- The names that are looked up on a path that starts with a name. -/
def visited (path : Str) : List Str :=
  if path.getLast? = some slash then slashed (words path) else words path

/-- **Splitting off the first name.** -/
theorem pathsplit_name {path : Str} {c : UInt8} (hc : path.head? = some c) (hne : c ≠ slash) :
    ∃ entry rmndr, pathsplit (slash :: path) = pure (entry, rmndr) ∧
      ((rmndr = [] ∧ visited path = [entry]) ∨ ∃ rest c', rmndr = slash :: rest ∧
        rest.head? = some c' ∧ c' ≠ slash ∧ rest.length < path.length ∧
        visited path = entry :: visited rest) := by
  obtain ⟨name, tail, hpath, hname, htail, hnil, hslash⟩ := split_name hc hne
  rw [pathsplit_slash, ← hname, ← htail]
  rcases dropWhile_ne_slash path with hend | ⟨rest, hrest⟩
  · -- the name is the last one
    rw [hend] at htail
    have hlast : path.getLast? ≠ some slash := by
      rw [hpath, htail, List.append_nil]
      exact fun h => hslash (List.mem_of_getLast? h)
    refine ⟨name, [], by rw [if_pos htail], .inl ⟨rfl, ?_⟩⟩
    rw [visited, if_neg hlast, hpath, htail, List.append_nil, words_name hnil hslash]
  · rw [hrest] at htail
    have hwords : words path = name :: words rest := by
      rw [hpath, htail, words_append, words_name hnil hslash]
      rfl
    have htail' : tail.dropWhile (· = slash) = rest.dropWhile (· = slash) := by
      rw [htail, List.dropWhile_cons_of_pos (by simp)]
    rw [if_neg (by simp [htail]), htail']
    rcases dropWhile_eq_slash rest with hend | ⟨c', hc', hne'⟩
    · -- slashes at the end of the path
      have hlast : path.getLast? = some slash := by
        have hall : ∀ d ∈ tail, d = slash := by
          intro d hd
          have hdrop : tail.dropWhile (· = slash) = [] := htail'.trans hend
          simpa using List.dropWhile_eq_nil_iff.1 hdrop d hd
        have htnil : tail ≠ [] := by simp [htail]
        rw [hpath, List.getLast?_append_of_ne_nil _ htnil, List.getLast?_eq_some_getLast htnil]
        exact congrArg some (hall _ (List.getLast_mem htnil))
      refine ⟨name ++ [slash], [], by rw [if_pos hend], .inl ⟨rfl, ?_⟩⟩
      rw [visited, if_pos hlast, hwords, words_eq_nil hend]
      rfl
    · have hne'' : rest.dropWhile (· = slash) ≠ [] := by
        intro h
        rw [h] at hc'
        simp at hc'
      have hsuffix : rest.dropWhile (· = slash) <:+ rest := List.dropWhile_suffix _
      obtain ⟨pre, hpre⟩ := hsuffix
      have hlast : path.getLast? = (rest.dropWhile (· = slash)).getLast? := by
        have hpath' : path = name ++ slash :: pre ++ rest.dropWhile (· = slash) := by
          rw [List.append_assoc, List.cons_append, hpre, ← htail]
          exact hpath
        conv_lhs => rw [hpath', List.getLast?_append_of_ne_nil _ hne'']
      refine ⟨name, slash :: rest.dropWhile (· = slash), by rw [if_neg hne''],
        .inr ⟨_, c', rfl, hc', hne', ?_, ?_⟩⟩
      · have h₁ := congrArg List.length hpath
        have h₂ := congrArg List.length htail
        have h₃ := congrArg List.length hpre
        simp only [List.length_append, List.length_cons] at h₁ h₂ h₃
        omega
      · have hsome : words (rest.dropWhile (· = slash)) ≠ [] := words_ne_nil hc' hne'
        rw [visited, visited, ← hlast, hwords, words_dropWhile]
        rw [words_dropWhile] at hsome
        split
        · exact slashed_cons hsome name
        · rfl

theorem components_nil (fuel : ℕ) : components fuel [] = pure [] := by
  cases fuel <;> rfl

/-- **The names in the remainder of a path.** -/
theorem components_spec : ∀ (fuel : ℕ) (path : Str) (c : UInt8), path.head? = some c → c ≠ slash →
    path.length < fuel → components fuel (slash :: path) = pure (visited path) := by
  intro fuel
  induction fuel with
  | zero => intro path c _ _ h; omega
  | succ fuel ih =>
      intro path c hc hne hlen
      obtain ⟨entry, rmndr, hsplit, hend | ⟨rest, c', rfl, hc', hne', hlt, hvis⟩⟩ :=
        pathsplit_name hc hne
      · obtain ⟨rfl, hvis⟩ := hend
        simp [components, hsplit, components_nil, hvis]
      · have hrest := ih rest c' hc' hne' (by omega)
        simp [components, hsplit, hrest, hvis]

/-- **The names that the traversals look up**, of which the first belongs to the root directory. -/
def Visits (path : Str) (l : List Str) : Prop :=
  ∃ entry rest, splitPath path = pure (entry, rest) ∧ l = entry :: rest

/-- What the traversals should look up: the names in the path, or the empty name of the root directory
itself. -/
def names (path : Str) : List Str := if words path = [] then [[]] else words path

/-- A path with one slash at the start, and none at the end unless it is the root. -/
def Plain (path : Str) : Prop :=
  path = [slash] ∨ (path.tail.head? ≠ some slash ∧ path.getLast? ≠ some slash)

theorem splitPath_of_pathsplit {path entry rmndr : Str} {l : List Str}
    (hsplit : pathsplit path = pure (entry, rmndr)) (hl : components rmndr.length rmndr = pure l) :
    splitPath path = pure (entry, l) := by
  simp [splitPath, hsplit, hl]

/-- A path that starts with a name. -/
theorem visits_name {path : Str} {c : UInt8} (hc : path.head? = some c) (hne : c ≠ slash) :
    Visits (slash :: path) (visited path) := by
  obtain ⟨entry, rmndr, hsplit, ⟨rfl, hvis⟩ | ⟨rest, c', rfl, hc', hne', -, hvis⟩⟩ :=
    pathsplit_name hc hne
  · exact ⟨entry, [], splitPath_of_pathsplit hsplit rfl, hvis⟩
  · exact ⟨entry, visited rest, splitPath_of_pathsplit hsplit
      (components_spec _ rest c' hc' hne' (by simp)), hvis⟩

/-- A path that starts with two slashes. -/
theorem visits_slash (path : Str) : Visits (slash :: slash :: path) [[slash]] ∧ words path = [] ∨
    words path ≠ [] ∧ ∃ l, Visits (slash :: slash :: path) ([] :: l) := by
  have hsplit := pathsplit_slash (slash :: path)
  have htake : (slash :: path).takeWhile (· ≠ slash) = [] := List.takeWhile_cons_of_neg (by simp)
  have hdrop : (slash :: path).dropWhile (· ≠ slash) = slash :: path :=
    List.dropWhile_cons_of_neg (by simp)
  have hdrop' : (slash :: path).dropWhile (· = slash) = path.dropWhile (· = slash) :=
    List.dropWhile_cons_of_pos (by simp)
  rw [htake, hdrop, hdrop', if_neg (List.cons_ne_nil _ _)] at hsplit
  rcases dropWhile_eq_slash path with hend | ⟨c, hc, hne⟩
  · rw [if_pos hend] at hsplit
    exact .inl ⟨⟨[slash], [], splitPath_of_pathsplit hsplit rfl, rfl⟩, words_eq_nil hend⟩
  · have hne' : path.dropWhile (· = slash) ≠ [] := by
      intro h
      rw [h] at hc
      simp at hc
    rw [if_neg hne'] at hsplit
    have hwords := words_ne_nil hc hne
    rw [words_dropWhile] at hwords
    exact .inr ⟨hwords, _, [], _,
      splitPath_of_pathsplit hsplit (components_spec _ _ c hc hne (by simp)), rfl⟩

/-- A path is split in one way. -/
theorem Visits.unique {path : Str} {l l' : List Str} (h : Visits path l) (h' : Visits path l') :
    l = l' := by
  obtain ⟨entry, rest, hrun, rfl⟩ := h
  obtain ⟨entry', rest', hrun', rfl⟩ := h'
  have heq := congrFun (hrun.symm.trans hrun') (World.boot [] [] id)
  simp only [pure_apply, EStateM.Result.ok.injEq, Prod.mk.injEq, and_true] at heq
  rw [heq.1, heq.2]

/-- A slash at the end makes a difference. -/
theorem slashed_ne {l : List Str} (hl : l ≠ []) : slashed l ≠ l := by
  induction l with
  | nil => exact absurd rfl hl
  | cons n l ih =>
      cases l with
      | nil => simp [slashed]
      | cons m l => simpa [slashed] using ih (by simp)

/-- **When slashes make no difference.**  The traversals of a path that starts with a slash look up the
names in it, or the root directory where there are none, exactly if the path is plain: the root, or a
path that has a name after its first slash and does not end in a slash.  Plain paths with the same names
are split into the same. -/
theorem visits_iff (path : Str) (h : path.head? = some slash) :
    (Visits path (names path) ↔ Plain path) ∧
    ∀ path', path'.head? = some slash → words path' = words path → Plain path → Plain path' →
      splitPath path' = splitPath path := by
  have hiff : ∀ path : Str, path.head? = some slash → (Visits path (names path) ↔ Plain path) := by
    intro path h
    obtain ⟨rest, rfl⟩ : ∃ rest, path = slash :: rest := by
      cases path with
      | nil => simp at h
      | cons c rest => exact ⟨rest, by simpa using h⟩
    rw [names, words_slash]
    cases rest with
    | nil => exact iff_of_true ⟨[], [], rfl, by simp⟩ (.inl rfl)
    | cons c rest =>
        by_cases hc : c = slash
        · subst hc
          refine iff_of_false (fun hvis => ?_) (by simp [Plain])
          rw [words_slash] at hvis
          rcases visits_slash rest with ⟨hvis', hnil⟩ | ⟨hwords, l, hvis'⟩
          · rw [if_pos hnil] at hvis
            exact absurd (hvis.unique hvis') (by simp)
          · rw [if_neg hwords] at hvis
            refine nil_notMem_words rest ?_
            rw [hvis.unique hvis']
            exact List.mem_cons_self
        · have hhead : (c :: rest).head? = some c := rfl
          have hvis := visits_name hhead hc
          have hnil := words_ne_nil hhead hc
          rw [if_neg hnil]
          have hplain : Plain (slash :: c :: rest) ↔ (c :: rest).getLast? ≠ some slash := by
            simp [Plain, hc, List.getLast?_cons_cons]
          rw [hplain]
          constructor
          · intro hvis' hlast
            rw [visited, if_pos hlast] at hvis
            exact slashed_ne hnil (hvis.unique hvis')
          · intro hlast
            rwa [visited, if_neg hlast] at hvis
  refine ⟨hiff path h, fun path' h' hwords hp hp' => ?_⟩
  obtain ⟨entry, rest, hrun, hvis⟩ := (hiff path h).2 hp
  obtain ⟨entry', rest', hrun', hvis'⟩ := (hiff path' h').2 hp'
  have hnames : entry' :: rest' = entry :: rest := by
    rw [← hvis', ← hvis, names, names, hwords]
  obtain ⟨rfl, rfl⟩ := List.cons_eq_cons.1 hnames
  rw [hrun, hrun']

/-- Slashes between names. -/
theorem visits_between : Visits (Str.ofText "/a///b") [Str.ofText "a", Str.ofText "b"] ∧
    splitPath (Str.ofText "/a/b") = splitPath (Str.ofText "/a///b") := by
  obtain ⟨hiff, hsame⟩ := visits_iff (Str.ofText "/a///b") (by decide)
  exact ⟨hiff.2 (.inr (by decide)), hsame _ (by decide) (by decide) (.inr (by decide)) (.inr (by decide))⟩

/-- Making a directory in a new file system, and finding it and others again. -/
def slashRun : M (List ℤ) := do
  fsMkfs .sample [] []
  let _ ← fsMkdir .sample (Str.ofText "/a") 0o755 [] []
  ["/a", "/a/", "/b", "//b", "/", "//"].mapM fun path => fsAccess .sample (Str.ofText path)

/-- **Paths that are not plain.**  The directory `/a` is not found as `/a/` nor the root as `//`, and
`//b`, which is not there, is taken for the root. -/
theorem not_visits_slashes :
    (∃ w, slashRun (.boot [fun _ => 1] [] id) = .ok [0, -2, -2, 0, 0, -2] w) ∧
    ¬ Visits (Str.ofText "/a/") (names (Str.ofText "/a/")) ∧
    ¬ Visits (Str.ofText "//") (names (Str.ofText "//")) ∧
    ¬ Visits (Str.ofText "//b") (names (Str.ofText "//b")) := by
  obtain ⟨r, w, hrun, hr⟩ := exists_of_passes (m := slashRun)
    (q := fun r _ => decide (r = [0, -2, -2, 0, 0, -2])) (s := .boot [fun _ => 1] [] id)
    (by decide +kernel)
  obtain rfl := of_decide_eq_true hr
  refine ⟨⟨w, hrun⟩, fun h => ?_, fun h => ?_, fun h => ?_⟩
  · exact absurd ((visits_iff _ (by decide)).1.1 h) (by unfold Plain; decide)
  · exact absurd ((visits_iff _ (by decide)).1.1 h) (by unfold Plain; decide)
  · exact absurd ((visits_iff _ (by decide)).1.1 h) (by unfold Plain; decide)

end UTFS

end Utopfs
