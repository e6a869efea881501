/-
**Graphs whose edges have names.**

A graph has some roots, and from each node an edge of a given name leads to at most one node.  A node
is named by a root and the path from it.  The edges carry keys; a graph is *unshared* when no two edges
carry the same key, so that a node which puts a key of its own on every edge that leads to it has one
path only.

Changing one edge of an unshared graph then changes the paths that go through this edge and no others:
the part of the graph below an edge can be detached and becomes a graph below a root of its own, a new node
can become such a root, and such a part can be attached at another edge.

Main definitions:

* `LGraph`, `LGraph.walk`, `LGraph.find` — graphs and following a path;
* `LGraph.Live` — the nodes that have a path;
* `LGraph.Unshared` — no key is on two edges;
* `LGraph.TakenAt`, `LGraph.DetachedAt`, `LGraph.AttachedAt` — graphs that differ in one root or edge.

Main results:

* `LGraph.find_map` — a renaming of the nodes renames what the paths lead to;
* `LGraph.Unshared.find_inj` — one path leads to a node;
* `LGraph.TakenAt.find_eq`, `LGraph.DetachedAt.find_eq`, `LGraph.AttachedAt.find_eq` — what the paths lead
  to after the change;
* `LGraph.Unshared.take`, `LGraph.Unshared.detach`, `LGraph.Unshared.attach` — the graph stays unshared.

Nothing here mentions what the nodes are.
-/

import Mathlib.Data.List.Infix
import Mathlib.Tactic

set_option relaxedAutoImplicit false
set_option autoImplicit false

/-- A graph with roots and named edges. -/
structure LGraph (ι L A : Type) where
  root : ι → Option L
  step : L → A → Option L

namespace LGraph

variable {ι L A K : Type} {G G' : LGraph ι L A}

/-! ### Paths -/

/-- The node at the end of a path. -/
def walk (G : LGraph ι L A) : L → List A → Option L
  | x, [] => some x
  | x, a :: p => (G.step x a).bind fun y => walk G y p

/-- The node at the end of a path from a root. -/
def find (G : LGraph ι L A) (i : ι) (p : List A) : Option L := (G.root i).bind fun x => G.walk x p

/-- The node has a path. -/
def Live (G : LGraph ι L A) (x : L) : Prop := ∃ i p, G.find i p = some x

@[simp] theorem walk_nil (x : L) : G.walk x [] = some x := rfl

theorem walk_cons (x : L) (a : A) (p : List A) :
    G.walk x (a :: p) = (G.step x a).bind fun y => G.walk y p := rfl

theorem walk_append (x : L) (p q : List A) :
    G.walk x (p ++ q) = (G.walk x p).bind fun y => G.walk y q := by
  induction p generalizing x with
  | nil => rfl
  | cons a p ih =>
      rw [List.cons_append, walk_cons, walk_cons]
      cases G.step x a with
      | none => rfl
      | some y => exact ih y

@[simp] theorem find_nil (i : ι) : G.find i [] = G.root i := by
  simp [find]

theorem find_append (i : ι) (p q : List A) :
    G.find i (p ++ q) = (G.find i p).bind fun y => G.walk y q := by
  simp only [find]
  cases G.root i with
  | none => rfl
  | some x => exact walk_append x p q

theorem find_snoc (i : ι) (p : List A) (a : A) :
    G.find i (p ++ [a]) = (G.find i p).bind fun y => G.step y a := by
  rw [find_append]
  cases G.find i p with
  | none => rfl
  | some x => simp [walk_cons]

theorem find_snoc_of {i : ι} {p : List A} {x : L} (h : G.find i p = some x) (a : A) :
    G.find i (p ++ [a]) = G.step x a := by
  rw [find_snoc, h, Option.bind_some]

/-- The last step of a path. -/
theorem find_snoc_eq_some {i : ι} {p : List A} {a : A} {y : L} (h : G.find i (p ++ [a]) = some y) :
    ∃ x, G.find i p = some x ∧ G.step x a = some y := by
  rw [find_snoc, Option.bind_eq_some_iff] at h
  exact h

theorem Live.of_root {i : ι} {x : L} (h : G.root i = some x) : G.Live x := ⟨i, [], by simpa using h⟩

theorem Live.step {x y : L} {a : A} (h : G.Live x) (hs : G.step x a = some y) : G.Live y := by
  obtain ⟨i, p, hp⟩ := h
  exact ⟨i, p ++ [a], by rw [find_snoc_of hp, hs]⟩

/-- **A renaming of the nodes renames what the paths lead to.** -/
theorem find_map {ρ : L → L} (hroot : ∀ i, G'.root i = (G.root i).map ρ)
    (hstep : ∀ x, G.Live x → ∀ a, G'.step (ρ x) a = (G.step x a).map ρ) (i : ι) (p : List A) :
    G'.find i p = (G.find i p).map ρ := by
  induction p using List.reverseRecOn with
  | nil => rw [find_nil, find_nil, hroot]
  | append_singleton p a ih =>
      rw [find_snoc, find_snoc, ih]
      cases hx : G.find i p with
      | none => rfl
      | some x => exact hstep x ⟨i, p, hx⟩ a

theorem find_congr {i : ι} (hroot : G'.root i = G.root i)
    (hstep : ∀ x, G.Live x → ∀ a, G'.step x a = G.step x a) (p : List A) : G'.find i p = G.find i p := by
  induction p using List.reverseRecOn with
  | nil => rw [find_nil, find_nil, hroot]
  | append_singleton p a ih =>
      rw [find_snoc, find_snoc, ih]
      cases hx : G.find i p with
      | none => rfl
      | some x => exact hstep x ⟨i, p, hx⟩ a

/-! ### Unshared graphs -/

/-- No two edges carry the same key; the keys of a root are those an edge to it would carry. -/
structure Unshared (G : LGraph ι L A) (rk : ι → K → Prop) (key : L → A → K → Prop) : Prop where
  root : ∀ i j k, rk i k → rk j k → i = j
  rootEdge : ∀ i k, rk i k → ∀ j q y b, G.find j q = some y → ¬ key y b k
  edge : ∀ i p x a, G.find i p = some x → ∀ j q y b, G.find j q = some y → ∀ k, key x a k → key y b k →
    i = j ∧ p = q ∧ a = b

/-- The node puts the key on every edge that leads to it. -/
def Marked (G : LGraph ι L A) (rk : ι → K → Prop) (key : L → A → K → Prop) (x : L) (k : K) : Prop :=
  (∀ i, G.root i = some x → rk i k) ∧ ∀ y, G.Live y → ∀ b, G.step y b = some x → key y b k

variable {rk rk' : ι → K → Prop} {key key' : L → A → K → Prop}

/-- **One path leads to a node.** -/
theorem Unshared.find_inj (h : G.Unshared rk key) {x : L} {k : K} (hx : G.Marked rk key x k) {i j : ι}
    {p q : List A} (hp : G.find i p = some x) (hq : G.find j q = some x) : i = j ∧ p = q := by
  cases p using List.reverseRecOn with
  | nil =>
      rw [find_nil] at hp
      have hk := hx.1 i hp
      cases q using List.reverseRecOn with
      | nil =>
          rw [find_nil] at hq
          exact ⟨h.root i j k hk (hx.1 j hq), rfl⟩
      | append_singleton q b =>
          obtain ⟨y, hy, hs⟩ := find_snoc_eq_some hq
          exact absurd (hx.2 y ⟨j, q, hy⟩ b hs) (h.rootEdge i k hk j q y b hy)
  | append_singleton p a =>
      obtain ⟨y, hy, hs⟩ := find_snoc_eq_some hp
      have hk := hx.2 y ⟨i, p, hy⟩ a hs
      cases q using List.reverseRecOn with
      | nil =>
          rw [find_nil] at hq
          exact absurd hk (h.rootEdge j k (hx.1 j hq) i p y a hy)
      | append_singleton q b =>
          obtain ⟨z, hz, hs'⟩ := find_snoc_eq_some hq
          obtain ⟨hi, hpq, hab⟩ := h.edge i p y a hy j q z b hz k hk (hx.2 z ⟨j, q, hz⟩ b hs')
          exact ⟨hi, by rw [hpq, hab]⟩

/-- Fewer paths, and fewer keys. -/
theorem Unshared.mono (h : G.Unshared rk key) (hrk : ∀ i k, rk' i k → rk i k)
    (hfind : ∀ i p x, G'.find i p = some x → G.find i p = some x)
    (hkey : ∀ x, G'.Live x → ∀ a k, key' x a k → key x a k) : G'.Unshared rk' key' where
  root i j k hi hj := h.root i j k (hrk i k hi) (hrk j k hj)
  rootEdge i k hi j q y b hy hk :=
    h.rootEdge i k (hrk i k hi) j q y b (hfind j q y hy) (hkey y ⟨j, q, hy⟩ b k hk)
  edge i p x a hx j q y b hy k hk hk' :=
    h.edge i p x a (hfind i p x hx) j q y b (hfind j q y hy) k (hkey x ⟨i, p, hx⟩ a k hk)
      (hkey y ⟨j, q, hy⟩ b k hk')

/-- A renaming of the nodes and of the keys. -/
theorem Unshared.map (h : G.Unshared rk key) {ρ : L → L} (κ : K → K) (hrk : ∀ i k, rk' i k → rk i (κ k))
    (hfind : ∀ i p, G'.find i p = (G.find i p).map ρ)
    (hkey : ∀ x, G.Live x → ∀ a k, key' (ρ x) a k → key x a (κ k)) : G'.Unshared rk' key' := by
  have hback : ∀ {i p y}, G'.find i p = some y → ∃ x, G.find i p = some x ∧ ρ x = y := by
    intro i p y hy
    rw [hfind, Option.map_eq_some_iff] at hy
    exact hy
  refine ⟨fun i j k hi hj => h.root i j (κ k) (hrk i k hi) (hrk j k hj), ?_, ?_⟩
  · intro i k hi j q y b hy hk
    obtain ⟨y', hy', rfl⟩ := hback hy
    exact h.rootEdge i (κ k) (hrk i k hi) j q y' b hy' (hkey y' ⟨j, q, hy'⟩ b k hk)
  · intro i p x a hx j q y b hy k hk hk'
    obtain ⟨x', hx', rfl⟩ := hback hx
    obtain ⟨y', hy', rfl⟩ := hback hy
    exact h.edge i p x' a hx' j q y' b hy' (κ k) (hkey x' ⟨i, p, hx'⟩ a k hk) (hkey y' ⟨j, q, hy'⟩ b k hk')

/-! ### Taking a new node -/

/-- The node `y`, from which no edge leads on, is now the root `h`. -/
structure TakenAt (G G' : LGraph ι L A) (h : ι) (y : L) : Prop where
  noHand : G.root h = none
  hand : G'.root h = some y
  root : ∀ i, i ≠ h → G'.root i = G.root i
  leaf : ∀ a, G'.step y a = none
  step : ∀ x, G.Live x → ∀ a, G'.step x a = G.step x a

section take

variable {h : ι} {y : L}

/-- **The paths from the other roots are as they were.** -/
theorem TakenAt.find_eq (ht : TakenAt G G' h y) (i : ι) (hi : i ≠ h) (p : List A) : G'.find i p = G.find i p :=
  find_congr (ht.root i hi) ht.step p

theorem TakenAt.find_hand (ht : TakenAt G G' h y) {p : List A} {x : L} (hp : G'.find h p = some x) :
    p = [] ∧ x = y := by
  cases p with
  | nil =>
      rw [find_nil, ht.hand] at hp
      exact ⟨rfl, (Option.some.inj hp).symm⟩
  | cons a p =>
      rw [find, ht.hand, Option.bind_some, walk_cons, ht.leaf] at hp
      simp at hp

theorem TakenAt.live (ht : TakenAt G G' h y) {x : L} (hx : G'.Live x) : G.Live x ∨ x = y := by
  obtain ⟨i, p, hp⟩ := hx
  by_cases hi : i = h
  · subst hi
    exact .inr (ht.find_hand hp).2
  · rw [ht.find_eq i hi] at hp
    exact .inl ⟨i, p, hp⟩

theorem Unshared.take (hu : G.Unshared rk key) (ht : TakenAt G G' h y) (hrk : ∀ i k, i ≠ h → rk' i k → rk i k)
    (hnew : ∀ k, rk' h k → (∀ i, ¬ rk i k) ∧ ∀ x, G.Live x → ∀ a, ¬ key x a k)
    (hkey : ∀ x, G.Live x → ∀ a k, key' x a k → key x a k) (hleaf : ∀ a k, ¬ key' y a k) :
    G'.Unshared rk' key' := by
  have hback : ∀ {i p x a k}, G'.find i p = some x → key' x a k → G.find i p = some x ∧ key x a k := by
    intro i p x a k hx hk
    by_cases hi : i = h
    · subst hi
      obtain ⟨-, rfl⟩ := ht.find_hand hx
      exact absurd hk (hleaf a k)
    · rw [ht.find_eq i hi] at hx
      exact ⟨hx, hkey x ⟨i, p, hx⟩ a k hk⟩
  refine ⟨?_, ?_, ?_⟩
  · intro i j k hi hj
    by_cases hih : i = h
    · by_cases hjh : j = h
      · rw [hih, hjh]
      · subst hih
        exact absurd (hrk j k hjh hj) ((hnew k hi).1 j)
    · by_cases hjh : j = h
      · subst hjh
        exact absurd (hrk i k hih hi) ((hnew k hj).1 i)
      · exact hu.root i j k (hrk i k hih hi) (hrk j k hjh hj)
  · intro i k hi j q z b hz hk
    obtain ⟨hz, hk⟩ := hback hz hk
    by_cases hih : i = h
    · subst hih
      exact (hnew k hi).2 z ⟨j, q, hz⟩ b hk
    · exact hu.rootEdge i k (hrk i k hih hi) j q z b hz hk
  · intro i p x a hx j q z b hz k hk hk'
    obtain ⟨hx, hk⟩ := hback hx hk
    obtain ⟨hz, hk'⟩ := hback hz hk'
    exact hu.edge i p x a hx j q z b hz k hk hk'

end take

/-! ### Detaching and attaching -/

/-- What was below the edge `a₀` of the node `x₀` is now below the root `h`. -/
structure DetachedAt (G G' : LGraph ι L A) (h : ι) (x₀ : L) (a₀ : A) : Prop where
  noHand : G.root h = none
  hand : G'.root h = G.step x₀ a₀
  root : ∀ i, i ≠ h → G'.root i = G.root i
  cut : G'.step x₀ a₀ = none
  step : ∀ x, G.Live x → ∀ a, (x = x₀ → a ≠ a₀) → G'.step x a = G.step x a

/-- What was below the root `h` is now below the edge `a₀` of the node `x₀`. -/
structure AttachedAt (G G' : LGraph ι L A) (h : ι) (x₀ : L) (a₀ : A) : Prop where
  noHand : G'.root h = none
  free : G.step x₀ a₀ = none
  edge : G'.step x₀ a₀ = G.root h
  root : ∀ i, i ≠ h → G'.root i = G.root i
  step : ∀ x, G.Live x → ∀ a, (x = x₀ → a ≠ a₀) → G'.step x a = G.step x a

section move

variable {x₀ : L} {a₀ : A} {h i₀ : ι} {p₀ : List A}

/-- A path of the changed graph and the path that led to the same node. -/
theorem DetachedAt.find_of_find (hd : DetachedAt G G' h x₀ a₀) (hx₀ : G.find i₀ p₀ = some x₀) {i : ι}
    {p : List A} {y : L} (hp : G'.find i p = some y) :
    (i ≠ h ∧ G.find i p = some y) ∨ (i = h ∧ G.find i₀ (p₀ ++ a₀ :: p) = some y) := by
  induction p using List.reverseRecOn generalizing y with
  | nil =>
      rw [find_nil] at hp
      by_cases hi : i = h
      · subst hi
        rw [hd.hand] at hp
        exact .inr ⟨rfl, by rw [find_snoc_of hx₀]; exact hp⟩
      · rw [hd.root i hi] at hp
        exact .inl ⟨hi, by rw [find_nil]; exact hp⟩
  | append_singleton p a ih =>
      obtain ⟨x, hx, hs⟩ := find_snoc_eq_some hp
      have hne : x = x₀ → a ≠ a₀ := by
        rintro rfl rfl
        rw [hd.cut] at hs
        simp at hs
      rcases ih hx with ⟨hi, hx'⟩ | ⟨hi, hx'⟩
      · refine .inl ⟨hi, ?_⟩
        rw [find_snoc_of hx', ← hd.step x ⟨i, p, hx'⟩ a hne]
        exact hs
      · refine .inr ⟨hi, ?_⟩
        have happ : p₀ ++ a₀ :: (p ++ [a]) = (p₀ ++ a₀ :: p) ++ [a] := by simp
        rw [happ, find_snoc_of hx', ← hd.step x ⟨i₀, _, hx'⟩ a hne]
        exact hs

/-- **The paths that avoid the edge are as they were, and those through it start at the new root.** -/
theorem DetachedAt.find_eq (hd : DetachedAt G G' h x₀ a₀) (hx₀ : G.find i₀ p₀ = some x₀)
    (huniq : ∀ i p, G.find i p = some x₀ → i = i₀ ∧ p = p₀) :
    (∀ i p, i ≠ h → ¬ (i = i₀ ∧ p₀ ++ [a₀] <+: p) → G'.find i p = G.find i p) ∧
      ∀ s, G'.find h s = G.find i₀ (p₀ ++ a₀ :: s) := by
  constructor
  · intro i p hi hav
    induction p using List.reverseRecOn with
    | nil => rw [find_nil, find_nil, hd.root i hi]
    | append_singleton p a ih =>
        have hp := ih fun hc => hav ⟨hc.1, hc.2.trans (List.prefix_append p [a])⟩
        rw [find_snoc, find_snoc, hp]
        cases hx : G.find i p with
        | none => rfl
        | some x =>
            refine hd.step x ⟨i, p, hx⟩ a ?_
            rintro rfl rfl
            obtain ⟨rfl, rfl⟩ := huniq i p hx
            exact hav ⟨rfl, List.prefix_refl _⟩
  · intro s
    induction s using List.reverseRecOn with
    | nil => rw [find_nil, hd.hand, find_snoc_of hx₀]
    | append_singleton s a ih =>
        have happ : p₀ ++ a₀ :: (s ++ [a]) = (p₀ ++ a₀ :: s) ++ [a] := by simp
        rw [happ, find_snoc, find_snoc, ih]
        cases hx : G.find i₀ (p₀ ++ a₀ :: s) with
        | none => rfl
        | some x =>
            refine hd.step x ⟨i₀, _, hx⟩ a ?_
            rintro rfl
            have := (huniq i₀ _ hx).2
            simp at this

theorem DetachedAt.ne_hand (hd : DetachedAt G G' h x₀ a₀) (hx₀ : G.find i₀ p₀ = some x₀) : i₀ ≠ h := by
  rintro rfl
  simp [find, hd.noHand] at hx₀

theorem DetachedAt.find_none (hd : DetachedAt G G' h x₀ a₀) (hx₀ : G.find i₀ p₀ = some x₀) (s : List A) :
    G'.find i₀ (p₀ ++ a₀ :: s) = none := by
  cases hg' : G'.find i₀ (p₀ ++ a₀ :: s) with
  | none => rfl
  | some y =>
      rw [find_append, Option.bind_eq_some_iff] at hg'
      obtain ⟨x, hx, hs⟩ := hg'
      rcases hd.find_of_find hx₀ hx with ⟨-, hx'⟩ | ⟨hi, -⟩
      · rw [hx₀] at hx'
        obtain rfl := Option.some.inj hx'
        rw [walk_cons, hd.cut] at hs
        simp at hs
      · exact absurd hi (hd.ne_hand hx₀)

theorem Unshared.detach (hu : G.Unshared rk key) (hd : DetachedAt G G' h x₀ a₀)
    (hx₀ : G.find i₀ p₀ = some x₀) (hrk : ∀ i k, i ≠ h → rk' i k → rk i k)
    (hrkh : ∀ k, rk' h k → key x₀ a₀ k)
    (hkey : ∀ x, G.Live x → ∀ a, (x = x₀ → a ≠ a₀) → ∀ k, key' x a k → key x a k)
    (hkey₀ : ∀ k, ¬ key' x₀ a₀ k) : G'.Unshared rk' key' := by
  -- Each live edge was live, at a path that determines the new one.
  have hback : ∀ {i p x a k}, G'.find i p = some x → key' x a k → ∃ j q, G.find j q = some x ∧
      key x a k ∧ (x = x₀ → a ≠ a₀) ∧
      ((i ≠ h ∧ j = i ∧ q = p) ∨ (i = h ∧ j = i₀ ∧ q = p₀ ++ a₀ :: p)) := by
    intro i p x a k hx hk
    have hne : x = x₀ → a ≠ a₀ := by
      rintro rfl rfl
      exact hkey₀ k hk
    rcases hd.find_of_find hx₀ hx with ⟨hi, hx'⟩ | ⟨hi, hx'⟩
    · exact ⟨i, p, hx', hkey x ⟨i, p, hx'⟩ a hne k hk, hne, .inl ⟨hi, rfl, rfl⟩⟩
    · exact ⟨i₀, _, hx', hkey x ⟨i₀, _, hx'⟩ a hne k hk, hne, .inr ⟨hi, rfl, rfl⟩⟩
  refine ⟨?_, ?_, ?_⟩
  · intro i j k hi hj
    by_cases hih : i = h
    · by_cases hjh : j = h
      · rw [hih, hjh]
      · subst hih
        exact absurd (hrkh k hi) (hu.rootEdge j k (hrk j k hjh hj) i₀ p₀ x₀ a₀ hx₀)
    · by_cases hjh : j = h
      · subst hjh
        exact absurd (hrkh k hj) (hu.rootEdge i k (hrk i k hih hi) i₀ p₀ x₀ a₀ hx₀)
      · exact hu.root i j k (hrk i k hih hi) (hrk j k hjh hj)
  · intro i k hi j q y b hy hk
    obtain ⟨j', q', hy', hk', hne, -⟩ := hback hy hk
    by_cases hih : i = h
    · subst hih
      obtain ⟨hj, hq, hb⟩ := hu.edge i₀ p₀ x₀ a₀ hx₀ j' q' y b hy' k (hrkh k hi) hk'
      rw [← hj, ← hq, hx₀] at hy'
      exact hne (Option.some.inj hy').symm hb.symm
    · exact hu.rootEdge i k (hrk i k hih hi) j' q' y b hy' hk'
  · intro i p x a hx j q y b hy k hk hk'
    obtain ⟨i', p', hx', hk₁, -, hi⟩ := hback hx hk
    obtain ⟨j', q', hy', hk₂, -, hj⟩ := hback hy hk'
    obtain ⟨hij, hpq, hab⟩ := hu.edge i' p' x a hx' j' q' y b hy' k hk₁ hk₂
    -- A path that went through the edge has been cut.
    rcases hi with ⟨hi, rfl, rfl⟩ | ⟨hi, rfl, rfl⟩
    · rcases hj with ⟨hj, rfl, rfl⟩ | ⟨hj, rfl, rfl⟩
      · exact ⟨hij, hpq, hab⟩
      · rw [hij, hpq, hd.find_none hx₀] at hx
        simp at hx
    · rcases hj with ⟨hj, rfl, rfl⟩ | ⟨hj, rfl, rfl⟩
      · rw [← hij, ← hpq, hd.find_none hx₀] at hy
        simp at hy
      · refine ⟨hi.trans hj.symm, ?_, hab⟩
        simpa using hpq

/-- **The paths that do not start at the root `h` or go through the new edge are as they were; those
through the edge started at `h`.** -/
theorem AttachedAt.find_eq (ha : AttachedAt G G' h x₀ a₀)
    (huniq : ∀ i p, G.find i p = some x₀ → i = i₀ ∧ p = p₀) :
    ∀ i p, i ≠ h → ¬ (i = i₀ ∧ p₀ ++ [a₀] <+: p) → G'.find i p = G.find i p := by
  intro i p hi hav
  induction p using List.reverseRecOn with
  | nil => rw [find_nil, find_nil, ha.root i hi]
  | append_singleton p a ih =>
      have hp := ih fun hc => hav ⟨hc.1, hc.2.trans (List.prefix_append p [a])⟩
      rw [find_snoc, find_snoc, hp]
      cases hx : G.find i p with
      | none => rfl
      | some x =>
          refine ha.step x ⟨i, p, hx⟩ a ?_
          rintro rfl rfl
          obtain ⟨rfl, rfl⟩ := huniq i p hx
          exact hav ⟨rfl, List.prefix_refl _⟩

theorem AttachedAt.find_below (ha : AttachedAt G G' h x₀ a₀) (hx₀ : G.find i₀ p₀ = some x₀)
    (huniq : ∀ i p, G.find i p = some x₀ → i = i₀ ∧ p = p₀) (hi₀ : i₀ ≠ h) (s : List A) :
    G'.find i₀ (p₀ ++ a₀ :: s) = G.find h s := by
  induction s using List.reverseRecOn with
  | nil =>
      have hx' : G'.find i₀ p₀ = some x₀ := by
        rw [ha.find_eq huniq i₀ p₀ hi₀ ?_]
        · exact hx₀
        · rintro ⟨-, hp⟩
          have := hp.length_le
          simp at this
      rw [find_nil, find_snoc_of hx', ha.edge]
  | append_singleton s a ih =>
      have happ : p₀ ++ a₀ :: (s ++ [a]) = (p₀ ++ a₀ :: s) ++ [a] := by simp
      rw [happ, find_snoc, find_snoc, ih]
      cases hx : G.find h s with
      | none => rfl
      | some x =>
          refine ha.step x ⟨h, s, hx⟩ a ?_
          rintro rfl
          exact absurd (huniq h s hx).1.symm hi₀

theorem AttachedAt.find_hand (ha : AttachedAt G G' h x₀ a₀) (p : List A) : G'.find h p = none := by
  simp [find, ha.noHand]

/-- A path of the changed graph and the path that led to the same node. -/
theorem AttachedAt.find_of_find (ha : AttachedAt G G' h x₀ a₀) (hx₀ : G.find i₀ p₀ = some x₀)
    (huniq : ∀ i p, G.find i p = some x₀ → i = i₀ ∧ p = p₀) {i : ι} {p : List A} {y : L}
    (hp : G'.find i p = some y) :
    i ≠ h ∧ ((G.find i p = some y ∧ ¬ (i = i₀ ∧ p₀ ++ [a₀] <+: p)) ∨
      (i = i₀ ∧ ∃ s, p = p₀ ++ a₀ :: s ∧ G.find h s = some y)) := by
  have hi : i ≠ h := by
    rintro rfl
    rw [ha.find_hand] at hp
    simp at hp
  refine ⟨hi, ?_⟩
  by_cases hav : i = i₀ ∧ p₀ ++ [a₀] <+: p
  · obtain ⟨rfl, s, rfl⟩ := hav
    have happ : p₀ ++ [a₀] ++ s = p₀ ++ a₀ :: s := by simp
    rw [happ] at hp ⊢
    rw [ha.find_below hx₀ huniq hi] at hp
    exact .inr ⟨rfl, s, rfl, hp⟩
  · rw [ha.find_eq huniq i p hi hav] at hp
    exact .inl ⟨hp, hav⟩

theorem Unshared.attach (hu : G.Unshared rk key) (ha : AttachedAt G G' h x₀ a₀)
    (hx₀ : G.find i₀ p₀ = some x₀) (huniq : ∀ i p, G.find i p = some x₀ → i = i₀ ∧ p = p₀)
    (hrk : ∀ i k, i ≠ h → rk' i k → rk i k) (hrkh : ∀ k, ¬ rk' h k)
    (hkey : ∀ x, G.Live x → ∀ a, (x = x₀ → a ≠ a₀) → ∀ k, key' x a k → key x a k)
    (hkey₀ : ∀ k, key' x₀ a₀ k → rk h k) : G'.Unshared rk' key' := by
  -- Each live edge is the new one, or was live at a path that determines the new one.
  have hback : ∀ {i p x a k}, G'.find i p = some x → key' x a k → i ≠ h ∧
      ((x = x₀ ∧ a = a₀ ∧ i = i₀ ∧ p = p₀ ∧ rk h k) ∨
        ∃ j q, G.find j q = some x ∧ key x a k ∧
          ((j = i ∧ q = p) ∨ (i = i₀ ∧ j = h ∧ p = p₀ ++ a₀ :: q))) := by
    intro i p x a k hx hk
    obtain ⟨hi, hcase⟩ := ha.find_of_find hx₀ huniq hx
    refine ⟨hi, ?_⟩
    by_cases hne : x = x₀ ∧ a = a₀
    · obtain ⟨rfl, rfl⟩ := hne
      refine .inl ⟨rfl, rfl, ?_⟩
      rcases hcase with ⟨hx', -⟩ | ⟨hi', s, -, hx'⟩
      · obtain ⟨h₁, h₂⟩ := huniq i p hx'
        exact ⟨h₁, h₂, hkey₀ k hk⟩
      · exact absurd ((huniq h s hx').1.trans hi'.symm).symm hi
    · have hne' : x = x₀ → a ≠ a₀ := fun h₁ h₂ => hne ⟨h₁, h₂⟩
      rcases hcase with ⟨hx', -⟩ | ⟨hi', s, hp, hx'⟩
      · exact .inr ⟨i, p, hx', hkey x ⟨i, p, hx'⟩ a hne' k hk, .inl ⟨rfl, rfl⟩⟩
      · exact .inr ⟨h, s, hx', hkey x ⟨h, s, hx'⟩ a hne' k hk, .inr ⟨hi', rfl, hp⟩⟩
  have hroot : ∀ {i k}, rk' i k → i ≠ h ∧ rk i k := by
    intro i k hi
    have hih : i ≠ h := by
      rintro rfl
      exact hrkh k hi
    exact ⟨hih, hrk i k hih hi⟩
  refine ⟨?_, ?_, ?_⟩
  · intro i j k hi hj
    exact hu.root i j k (hroot hi).2 (hroot hj).2
  · intro i k hi j q y b hy hk
    obtain ⟨hih, hi'⟩ := hroot hi
    rcases (hback hy hk).2 with ⟨-, -, -, -, hh⟩ | ⟨j', q', hy', hk', -⟩
    · exact hih (hu.root i h k hi' hh)
    · exact hu.rootEdge i k hi' j' q' y b hy' hk'
  · intro i p x a hx j q y b hy k hk hk'
    obtain ⟨hi, hx'⟩ := hback hx hk
    obtain ⟨hj, hy'⟩ := hback hy hk'
    rcases hx' with ⟨-, rfl, rfl, rfl, hh⟩ | ⟨i', p', hx', hk₁, hip⟩
    · rcases hy' with ⟨-, rfl, rfl, rfl, -⟩ | ⟨j', q', hy', hk₂, -⟩
      · exact ⟨rfl, rfl, rfl⟩
      · exact absurd hk₂ (hu.rootEdge h k hh j' q' y b hy')
    · rcases hy' with ⟨-, rfl, rfl, rfl, hh⟩ | ⟨j', q', hy', hk₂, hjq⟩
      · exact absurd hk₁ (hu.rootEdge h k hh i' p' x a hx')
      · obtain ⟨hij, hpq, hab⟩ := hu.edge i' p' x a hx' j' q' y b hy' k hk₁ hk₂
        subst hij hpq hab
        rcases hip with ⟨rfl, rfl⟩ | ⟨rfl, rfl, rfl⟩
        · rcases hjq with ⟨rfl, rfl⟩ | ⟨-, hih, -⟩
          · exact ⟨rfl, rfl, rfl⟩
          · exact absurd hih hi
        · rcases hjq with ⟨rfl, -⟩ | ⟨rfl, -, rfl⟩
          · exact absurd rfl hj
          · exact ⟨rfl, rfl, rfl⟩

end move

end LGraph
