/-
**Writes that fail.**

`FileNode::write` changes the blocks of its range one by one, and sets the size when it is done.  It
fails when a block is not in memory and the block store does not return it or returns it damaged, and,
after it has visited all the blocks there are, when the range goes beyond the triple indirect block.  The
blocks in front of the failure have been changed then.

A write that fails before it comes to its first block changes nothing: the indirect blocks that it
has read are new nodes in the clean cache.

Main definitions:

* `UTFS.Loaded` — nodes have been read, and nothing else has happened;
* `UTFS.Fetched` — the node that has been fetched for a name;
* `UTFS.Missing` — the block at an offset cannot be found;
* `UTFS.FailsFirst` — the write fails before its first block;
* `UTFS.Unchanged` — the bytes, the size, the count of blocks and the dirty nodes are the same.

Main results:

* `UTFS.wp_traverseSlot_missing` — a traversal that does not find its first block;
* `UTFS.failed_write_unchanged` — **when a failing write changes nothing**.
-/

import Mathlib
import Utopfs.TruncateLaw

set_option relaxedAutoImplicit false
set_option autoImplicit false

namespace Utopfs

namespace UTFS

open Prog

/-! ### What a failing write must leave alone -/

/-- The nodes that can be reached from a file node through handles and dirty maps. -/
inductive Reaches (w : World) (root : ℕ) : Obj → Prop
  | root : Reaches w root (.fil root)
  | entry {d f : ℕ} {name : Str} :
      Reaches w root (.fil d) → (name, f) ∈ (w.fil d).dirty → Reaches w root (.fil f)
  | slot {f n : ℕ} {s : FSlot} :
      Reaches w root (.fil f) → (w.fil f).objs s = some n → Reaches w root (.blk n)
  | sub {m n : ℕ} {i : Fin 256} :
      Reaches w root (.blk m) → (w.blk m).blkobj i = some n → Reaches w root (.blk n)

/-- `bn_isdirty`. -/
def World.isDirty (w : World) : Obj → Bool
  | .fil f => (w.fil f).isdirty
  | .blk n => (w.blk n).isdirty

/-- The dirty nodes that can be reached from a file node. -/
def World.dirtyFrom (w : World) (root : ℕ) : Set Obj := {o | Reaches w root o ∧ w.isDirty o = true}

/-- **Nothing that counts has changed.** -/
structure Unchanged (E : Env) (f : ℕ) (w w' : World) : Prop where
  bytes : ∀ a, fileBytes E w' f a = fileBytes E w f a
  size : (w'.fil f).inode.size = (w.fil f).inode.size
  blocks : (w'.fil f).inode.blocks = (w.fil f).inode.blocks
  dirty : ∀ root, w'.dirtyFrom root = w.dirtyFrom root

/-! ### Nodes that have been read -/

variable (E : Env)

/-- The block store returns the block, and it matches its reference. -/
def Intact (log : List Effect) (r : BlockRef) : Prop :=
  ∃ x, getBlock r log = some x ∧ E.digest x.1 = r.dig

/-- Nodes have been read into the clean cache. -/
structure Loaded (w w' : World) : Prop where
  log : w'.log = w.log
  fil : w'.fil = w.fil
  nblk : w.nblk ≤ w'.nblk
  blk : ∀ m, m < w.nblk → w'.blk m = w.blk m
  cache : ∀ r, w'.cache.nodemap r = w.cache.nodemap r ∨
    (w.cache.nodemap r = none ∧ ∃ n b, w'.cache.nodemap r = some (.blk n) ∧ n < w'.nblk ∧
      decode E w.log r = some b ∧ (w'.blk n).blkobj = (fun _ => none) ∧ (w'.blk n).blkref = unpackRefs b ∧
      Intact E w.log r)

/-- Handles and the clean cache lead to nodes that exist. -/
structure HeapOk (w : World) : Prop where
  fil : ∀ f s n, (w.fil f).objs s = some n → n < w.nblk
  sub : ∀ m i n, m < w.nblk → (w.blk m).blkobj i = some n → n < w.nblk
  key : ∀ r n, w.cache.nodemap r = some (.blk n) → n < w.nblk

/-- A block that is not in memory and cannot be read. -/
def World.Lost (w : World) (x : Option ℕ × BlockRef) : Prop :=
  w.blkOf x.1 x.2 = none ∧ x.2 ≠ .nil ∧ ¬ Intact E w.log x.2

/-- The range of `size` bytes from the offset `o` under a name on begins in a lost data block or in an indirect
block that is lost.  An empty range that begins where a block does has not entered it. -/
def Missing (w : World) (size : ℕ) : ℕ → Option ℕ × BlockRef → ℕ → Prop
  | 0, x, o => 0 < o + size ∧ w.Lost E x
  | level + 1, x, o => 0 < o + size ∧ (w.Lost E x ∨ ((x.1.isSome ∨ x.2 ≠ .nil) ∧
      Missing w size level (w.namesIn E x (Fin.ofNat 256 (o / span level))) (o % span level)))

/-- A write of `size` bytes at the offset `off` fails before it comes to a block. -/
def FailsFirst (w : World) (f off size : ℕ) : Prop :=
  maxSize ≤ off ∧ maxSize < off + size ∨ ∃ s : FSlot, s.base ≤ off ∧ off < s.top ∧
    Missing E w size s.level (w.slotName (.fil f s)) (off - s.base)

variable {E}

section loaded

variable {w w₁ w' : World}

theorem Loaded.refl (w : World) : Loaded E w w :=
  ⟨rfl, rfl, Nat.le_refl _, fun _ _ => rfl, fun _ => .inl rfl⟩

theorem Loaded.trans (h : Loaded E w w₁) (h' : Loaded E w₁ w') : Loaded E w w' where
  log := h'.log.trans h.log
  fil := h'.fil.trans h.fil
  nblk := h.nblk.trans h'.nblk
  blk m hm := (h'.blk m (hm.trans_le h.nblk)).trans (h.blk m hm)
  cache r := by
    rcases h.cache r with hsame | ⟨hnone, n, b, hn, hlt, hb, hobj, href, hread⟩
    · rcases h'.cache r with hsame' | ⟨hnone, n, b, hn, hlt, hb, hobj, href, hread⟩
      · exact .inl (hsame'.trans hsame)
      · exact .inr ⟨hsame ▸ hnone, n, b, hn, hlt, h.log ▸ hb, hobj, href, h.log ▸ hread⟩
    · rcases h'.cache r with hsame' | ⟨hnone', -⟩
      · refine .inr ⟨hnone, n, b, hsame'.trans hn, hlt.trans_le h'.nblk, hb, ?_, ?_, hread⟩
        · rw [h'.blk n hlt, hobj]
        · rw [h'.blk n hlt, href]
      · rw [hn] at hnone'
        simp at hnone'

theorem Loaded.heapOk (h : Loaded E w w') (hw : HeapOk w)
    (hnew : ∀ m i n, w.nblk ≤ m → m < w'.nblk → (w'.blk m).blkobj i = some n → n < w'.nblk) :
    HeapOk w' where
  fil f s n hn := (hw.fil f s n (h.fil ▸ hn)).trans_le h.nblk
  sub m i n hm hn := by
    rcases Nat.lt_or_ge m w.nblk with hlt | hge
    · rw [h.blk m hlt] at hn
      exact (hw.sub m i n hlt hn).trans_le h.nblk
    · exact hnew m i n hge hm hn
  key r n hn := by
    rcases h.cache r with hsame | ⟨-, m, b, hm, hlt, -⟩
    · exact (hw.key r n (hsame ▸ hn)).trans_le h.nblk
    · rw [hm] at hn
      injection hn with hn
      injection hn with hn
      exact hn ▸ hlt

/-- The node of a name is still the same. -/
theorem Loaded.blkOf (h : Loaded E w w') {x : Option ℕ × BlockRef} {n : ℕ}
    (hn : w.blkOf x.1 x.2 = some n) : w'.blkOf x.1 x.2 = some n := by
  cases hx : x.1 with
  | some m => simpa [World.blkOf, hx] using hn
  | none =>
      simp only [World.blkOf, hx] at hn ⊢
      rcases h.cache x.2 with hsame | ⟨hnone, -⟩
      · rw [hsame]
        exact hn
      · rw [hnone] at hn
        simp at hn

/-- The names in an indirect block are still the same. -/
theorem Loaded.namesIn_of_lt (h : Loaded E w w') {x : Option ℕ × BlockRef}
    (hlt : ∀ n, w.blkOf x.1 x.2 = some n → n < w.nblk) (i : Fin 256) :
    w'.namesIn E x i = w.namesIn E x i := by
  cases hn : w.blkOf x.1 x.2 with
  | some n =>
      simp only [World.namesIn, hn, h.blkOf hn, World.slotName, World.slotObj, World.slotRef,
        h.blk n (hlt n hn)]
  | none =>
      have ho : x.1 = none := by
        cases ho : x.1 with
        | none => rfl
        | some m => simp [World.blkOf, ho] at hn
      rcases h.cache x.2 with hsame | ⟨hnone, n, b, hmap, -, hb, hobj, href, -⟩
      · have hn' : w'.blkOf x.1 x.2 = none := by
          simp only [World.blkOf, ho, hsame] at hn ⊢
          exact hn
        simp only [World.namesIn, hn, hn', storedRefs, h.log]
      · -- The block has been read: the node has the references that are stored.
        have hn' : w'.blkOf x.1 x.2 = some n := by simp only [World.blkOf, ho, hmap]
        simp only [World.namesIn, hn, hn', World.slotName, World.slotObj, World.slotRef, hobj, href,
          storedRefs, hb]

/-- The node of a name exists if the handle and the clean cache lead to nodes that do. -/
theorem blkOf_lt {x : Option ℕ × BlockRef} (hx : ∀ n, x.1 = some n → n < w.nblk)
    (hkey : ∀ r n, w.cache.nodemap r = some (.blk n) → n < w.nblk) {n : ℕ}
    (hn : w.blkOf x.1 x.2 = some n) : n < w.nblk := by
  simp only [World.blkOf] at hn
  split at hn
  case h_1 m hm => exact (Option.some.inj hn) ▸ hx m hm
  case h_2 =>
    split at hn
    case h_1 m hm => exact (Option.some.inj hn) ▸ hkey _ m hm
    case h_2 => simp at hn

theorem Loaded.namesIn (h : Loaded E w w') (hw : HeapOk w) {x : Option ℕ × BlockRef}
    (hx : ∀ n, x.1 = some n → n < w.nblk) (i : Fin 256) :
    w'.namesIn E x i = w.namesIn E x i :=
  h.namesIn_of_lt (fun _ hn => blkOf_lt hx hw.key hn) i

/-- A handle that an indirect block names leads to a node that exists. -/
theorem HeapOk.namesIn (hw : HeapOk w) {x : Option ℕ × BlockRef} (hx : ∀ n, x.1 = some n → n < w.nblk)
    (i : Fin 256) (n : ℕ) (hn : (w.namesIn E x i).1 = some n) : n < w.nblk := by
  simp only [World.namesIn] at hn
  split at hn
  case h_1 m hm =>
    have hlt : m < w.nblk := blkOf_lt hx hw.key hm
    exact hw.sub m i n hlt hn
  case h_2 => simp at hn

theorem Loaded.lost (h : Loaded E w w') {x : Option ℕ × BlockRef} (hx : w.Lost E x) : w'.Lost E x := by
  obtain ⟨hnone, hne, hread⟩ := hx
  refine ⟨?_, hne, h.log ▸ hread⟩
  cases ho : x.1 with
  | some m => simp [World.blkOf, ho] at hnone
  | none =>
      simp only [World.blkOf, ho] at hnone ⊢
      rcases h.cache x.2 with hsame | ⟨-, n, b, -, -, hb, -, -, hread'⟩
      · rw [hsame]
        exact hnone
      · exact absurd hread' hread

/-- What cannot be found cannot be found later. -/
theorem Loaded.missing (h : Loaded E w w') (hw : HeapOk w) {size : ℕ} :
    ∀ (level : ℕ) (x : Option ℕ × BlockRef) (o : ℕ), (∀ n, x.1 = some n → n < w.nblk) →
      Missing E w size level x o → Missing E w' size level x o := by
  intro level
  induction level with
  | zero => exact fun x o _ hx => hx.imp_right h.lost
  | succ level ih =>
      rintro x o hx ⟨hin, hlost | ⟨hocc, hbelow⟩⟩
      · exact ⟨hin, .inl (h.lost hlost)⟩
      · refine ⟨hin, .inr ⟨hocc, ?_⟩⟩
        rw [h.namesIn hw hx]
        exact ih _ _ (hw.namesIn hx _) hbelow

end loaded

/-! ### Traversals that do not find their first block -/

/-- An exception that `FileNode::write` does not catch. -/
def Uncaught (e : Exn) : Prop := ∀ x, e ≠ .errno x

/-- A traversal has failed before it changed anything. -/
def FailedClean (E : Env) (w : World) (e : Exn) (w' : World) : Prop := Uncaught e ∧ Loaded E w w'

theorem FailedClean.trans {w w₁ w' : World} {e : Exn} (h : Loaded E w w₁) (h' : FailedClean E w₁ e w') :
    FailedClean E w e w' :=
  ⟨h'.1, h.trans h'.2⟩

section missing

variable {V : Type} {t : Traversal V} {w : World}

/-- A stored block is read. -/
theorem wp_loadBlk_loaded (level : ℕ) (r : BlockRef) (w : World) :
    wp (loadBlk E level r)
      (fun n w' => ∃ b, Intact E w.log r ∧ decode E w.log r = some b ∧ n = w.nblk ∧
        w' = w.alloc (.stored level r b))
      (FailedClean E w) w := by
  simp only [loadBlk, readBlock, bsBlockGet, validate, allocBlk, wp_bind, wp_get]
  split
  case h_2 => exact ⟨fun _ => by simp, .refl w⟩
  case h_1 b k hb =>
    simp only [wp_pure]
    split
    case isTrue => exact ⟨fun _ => by simp, .refl w⟩
    case isFalse hdig =>
      simp only [wp_bind, wp_pure, wp_get, wp_set]
      exact ⟨E.decrypt r.iv b, ⟨_, hb, not_not.1 hdig⟩, by simp [decode, hb], trivial, rfl⟩

/-- What is known about the node that has been fetched for a name: it is the one in memory, or has been read
from the store.  The nodes that are new have been read from the store. -/
structure Fetched (E : Env) (w : World) (x : Option ℕ × BlockRef) (n : ℕ) (w' : World) : Prop where
  loaded : Loaded E w w'
  node : w.blkOf x.1 x.2 = some n ∨ (x.1 = none ∧ w.nblk ≤ n)
  names : ∀ i, w'.slotName (.sub n i) = w.namesIn E x i
  found : ¬ w.Lost E x
  new : ∀ m, w.nblk ≤ m → m < w'.nblk →
    ∃ level r b, decode E w.log r = some b ∧ w'.blk m = .stored level r b

/-- What is known about the node that has been found for a name, in a heap that is in order. -/
structure FoundName (E : Env) (w : World) (x : Option ℕ × BlockRef) (n : ℕ) (w' : World) : Prop where
  loaded : Loaded E w w'
  heap : HeapOk w'
  names : ∀ i, w'.slotName (.sub n i) = w.namesIn E x i
  found : ¬ w.Lost E x

theorem Fetched.foundName {x : Option ℕ × BlockRef} {n : ℕ} {w' : World} (h : Fetched E w x n w')
    (hw : HeapOk w) : FoundName E w x n w' := by
  refine ⟨h.loaded, h.loaded.heapOk hw fun m i k hge hlt hk => ?_, h.names, h.found⟩
  obtain ⟨level, r, b, -, hm⟩ := h.new m hge hlt
  rw [hm] at hk
  simp [BlkNode.stored] at hk

/-- The node of a name that is in memory, when nothing but the clean cache has changed. -/
theorem Fetched.of_blkOf {x : Option ℕ × BlockRef} {n : ℕ} {w' : World} (hn : w.blkOf x.1 x.2 = some n)
    (hload : Loaded E w w') (hblk : w'.blk = w.blk) (hnblk : w'.nblk = w.nblk) : Fetched E w x n w' := by
  refine ⟨hload, .inl hn, fun i => ?_, ?_, fun m hge hlt => by omega⟩
  · simp only [World.namesIn, hn, World.slotName, World.slotObj, World.slotRef, hblk]
  · rintro ⟨hnone, -⟩
    rw [hn] at hnone
    simp at hnone

/-- The block of a reference, from the cache or from the store. -/
theorem wp_faultBlk_fetched (nocache : Bool) (level : ℕ) (r : BlockRef) (w : World) :
    wp (faultBlk E nocache level r) (fun n w' => Fetched E w (none, r) n w') (FailedClean E w) w := by
  simp only [faultBlk, cacheLookup, wp_bind, wp_get]
  cases hr : w.cache.nodemap r with
  | some o =>
      have htouch : wp (cacheTouch o)
          (fun _ w' => w'.cache.nodemap = w.cache.nodemap ∧ ∃ c, w' = w.setCache c)
          (FailedClean E w) w := by
        simp only [cacheTouch, mruErase, mruPushFront, wp_bind, wp_get]
        split
        case h_2 => exact ⟨fun _ => by simp, .refl w⟩
        case h_1 p _ =>
          split
          case isTrue => exact ⟨rfl, _, rfl⟩
          case isFalse => exact ⟨fun _ => by simp, .refl w⟩
      simp only [wp_bind]
      refine wp_mono htouch ?_ (fun _ _ h => h)
      rintro - w' ⟨hmap, c, rfl⟩
      have hload : Loaded E w (w.setCache c) :=
        ⟨rfl, rfl, Nat.le_refl _, fun _ _ => rfl, fun r => .inl (congrFun hmap r)⟩
      change wp (castBlk level o) _ _ (w.setCache c)
      cases o with
      | fil g => exact ⟨fun _ => by simp, hload⟩
      | blk n =>
          simp only [castBlk, wp_bind, wp_get]
          split
          case isFalse => exact ⟨fun _ => by simp, hload⟩
          case isTrue => exact .of_blkOf (by simp only [World.blkOf, hr]) hload rfl rfl
  | none =>
      simp only [wp_pure, wp_bind]
      refine wp_mono (wp_loadBlk_loaded level r w) ?_ (fun _ _ h => h)
      rintro n w₁ ⟨b, hread, hb, rfl, rfl⟩
      have hself : (w.alloc (.stored level r b)).blk w.nblk = .stored level r b :=
        Function.update_self _ _ _
      have hgrew := Grew.alloc w (.stored level r b)
      have hnone : w.blkOf none r = none := by simp only [World.blkOf, hr]
      -- The new node, in the cache or not.
      have finish : ∀ w', w'.log = w.log → w'.fil = w.fil → w'.nblk = w.nblk + 1 →
          w'.blk = (w.alloc (.stored level r b)).blk →
          (∀ r', w'.cache.nodemap r' = w.cache.nodemap r' ∨
            (r' = r ∧ w'.cache.nodemap r' = some (.blk w.nblk))) →
          Fetched E w (none, r) w.nblk w' := by
        intro w' hlog hfil hnblk hblk hcache
        have hnode : w'.blk w.nblk = .stored level r b := by rw [hblk, hself]
        have hload : Loaded E w w' := by
          refine ⟨hlog, hfil, by omega, fun m hm => ?_, fun r' => ?_⟩
          · rw [hblk]
            exact hgrew.blk m hm
          · rcases hcache r' with hsame | ⟨rfl, hmap⟩
            · exact .inl hsame
            · exact .inr ⟨hr, w.nblk, b, hmap, by omega, hb, by rw [hnode]; rfl, by rw [hnode]; rfl, hread⟩
        refine ⟨hload, .inr ⟨rfl, Nat.le_refl _⟩, fun i => ?_, fun hlost => hlost.2.2 hread, fun m hge hlt => ?_⟩
        · simp only [World.namesIn, hnone, World.slotName, World.slotObj, World.slotRef, hnode,
            storedRefs, hb, BlkNode.stored]
        · obtain rfl : m = w.nblk := by omega
          exact ⟨level, r, b, hb, hnode⟩
      cases nocache with
      | true =>
          simp only [Bool.not_true, Bool.false_eq_true, if_false, wp_pure]
          exact finish _ rfl rfl rfl rfl fun _ => .inl rfl
      | false =>
          have href : (w.alloc (.stored level r b)).refOf (.blk w.nblk) = r := by
            rw [World.refOf, hself]
            rfl
          have hmiss : (w.alloc (.stored level r b)).cache.nodemap
              ((w.alloc (.stored level r b)).refOf (.blk w.nblk)) = none := by
            rw [href]
            exact hr
          simp only [Bool.not_false, if_true, cacheInsert, mruPushFront, wp_bind, wp_get, hmiss, wp_set,
            wp_modify, wp_pure]
          refine finish _ rfl rfl rfl rfl fun r' => ?_
          rw [href]
          by_cases he : r' = r
          · exact .inr ⟨he, by rw [he]; exact Function.update_self _ _ _⟩
          · exact .inl (Function.update_of_ne he _ _)

/-- The node of a slot that holds a block. -/
theorem wp_findBlk_fetched (level : ℕ) {s : Slot} (hocc : w.Occupied s) :
    wp (findBlk E t level s) (fun n w' => Fetched E w (w.slotName s) n w') (FailedClean E w) w := by
  simp only [findBlk, wp_bind, wp_get]
  cases hobj : w.slotObj s with
  | some n =>
      simp only [castBlk, wp_bind, wp_get]
      split
      case isFalse => exact ⟨fun _ => by simp, .refl w⟩
      case isTrue => exact .of_blkOf (by simp only [World.slotName, hobj, World.blkOf]) (.refl w) rfl rfl
  | none =>
      have hr : w.slotRef s ≠ .nil := by simpa [World.Occupied, hobj] using hocc
      simp only [hr, ne_eq, not_false_eq_true, if_true]
      have hname : w.slotName s = (none, w.slotRef s) := by simp only [World.slotName, hobj]
      rw [hname]
      exact wp_faultBlk_fetched t.nocache level _ w

theorem wp_findBlk_loaded (hw : HeapOk w) (level : ℕ) {s : Slot} (hocc : w.Occupied s) :
    wp (findBlk E t level s) (fun n w' => FoundName E w (w.slotName s) n w') (FailedClean E w) w :=
  wp_mono (wp_findBlk_fetched level hocc) (fun _ _ h => h.foundName hw) fun _ _ hF => hF

theorem Missing.inside {size level o : ℕ} {x : Option ℕ × BlockRef} (h : Missing E w size level x o) :
    0 < o + size := by
  cases level with
  | zero => exact h.1
  | succ level => exact h.1

theorem Missing.occupied {size level o : ℕ} {x : Option ℕ × BlockRef} (h : Missing E w size level x o) :
    x.1.isSome ∨ x.2 ≠ .nil := by
  cases level with
  | zero => exact .inr h.2.2.1
  | succ level =>
      rcases h.2 with hlost | hbelow
      · exact .inr hlost.2.1
      · exact hbelow.1

/-- **A traversal that does not find its first block** fails and has changed nothing. -/
theorem wp_traverseSlot_missing :
    ∀ (level : ℕ) (w : World) (s : Slot) (base : ℕ) (v : V), HeapOk w →
      (∀ n, w.slotObj s = some n → n < w.nblk) → base ≤ t.rngoff → t.rngoff < base + span level →
      Missing E w t.rngsize level (w.slotName s) (t.rngoff - base) →
      wp (traverseSlot E t (rbTraverse E t level) level s base v) (fun _ _ => False) (FailedClean E w)
        w := by
  intro level
  induction level with
  | zero =>
      intro w s base v hw hs hbase hspan hmiss
      rw [traverseSlot]
      refine wp_seq (wp_findBlk_loaded hw 0 hmiss.occupied) ?_ (fun _ _ hF => hF)
      intro n w' hfound
      exact absurd hmiss.2 hfound.found
  | succ level ih =>
      intro w s base v hw hs hbase hspan hmiss
      rw [traverseSlot]
      refine wp_seq (wp_findBlk_loaded hw (level + 1) hmiss.occupied) ?_ (fun _ _ hF => hF)
      intro n w₁ hfound
      obtain ⟨hin, hlost | ⟨-, hbelow⟩⟩ := hmiss
      · exact absurd hlost hfound.found
      have hend : t.rngend = t.rngoff + t.rngsize := rfl
      have hinside := hbelow.inside
      -- The first block is under the reference with this index.
      have hsucc : span (level + 1) = 256 * span level := rfl
      have hpos := span_pos level
      obtain ⟨ndx, hndx⟩ : ∃ ndx, ndx = (t.rngoff - base) / span level := ⟨_, rfl⟩
      have hlt : ndx < 256 := by
        rw [hndx, Nat.div_lt_iff_lt_mul hpos]
        omega
      have hdiv := Nat.div_add_mod (t.rngoff - base) (span level)
      have hmod := Nat.mod_lt (t.rngoff - base) hpos
      rw [← hndx, Nat.mul_comm] at hdiv
      have hmax : max t.rngoff base - base = t.rngoff - base := by omega
      have hcount : 256 - ndx = (255 - ndx) + 1 := by omega
      rw [wp_bind, rbTraverse, if_neg (by omega)]
      simp only [hmax, ← hndx, hcount]
      rw [wp_bind, traverseLoop, if_neg (by simp only [decide_eq_true_eq]; omega), wp_bind]
      have hname := hfound.names (Fin.ofNat 256 ndx)
      rw [← hndx, ← hname] at hbelow
      have hxs : ∀ m, (w₁.slotName (.sub n (Fin.ofNat 256 ndx))).1 = some m → m < w.nblk := by
        rw [hname]
        exact hw.namesIn hs _
      have hmiss₁ := hfound.loaded.missing hw level _ _ hxs hbelow
      have hsub := ih w₁ (.sub n (Fin.ofNat 256 ndx)) (base + ndx * span level) v hfound.heap
        (fun m hm => (hxs m hm).trans_le hfound.loaded.nblk) (by omega) (by omega)
        (by rw [show t.rngoff - (base + ndx * span level) = (t.rngoff - base) % span level by omega]
            exact hmiss₁)
      exact wp_mono hsub (fun _ _ hF => absurd hF id) fun _ _ hF => hF.trans hfound.loaded

/-- The slots in front of the first block are passed over. -/
theorem wp_traverseDir_missing {f : ℕ} (i : Fin 20) (hw : HeapOk w)
    (hbase : (FSlot.dir i).base ≤ t.rngoff) (htop : t.rngoff < (FSlot.dir i).top)
    (hmiss : Missing E w t.rngsize 0 (w.slotName (.fil f (.dir i))) (t.rngoff - (FSlot.dir i).base)) (v : V) :
    wp (traverseDir E t f v) (fun _ _ => False) (FailedClean E w) w := by
  have hend : t.rngend = t.rngoff + t.rngsize := rfl
  have hinside := hmiss.inside
  have hb := FSlot.base_dir i
  have ht := FSlot.top_dir i
  -- From the slot `k` on, when there are `count` left.
  have key : ∀ count k, k + count = 20 → k ≤ i.1 →
      wp (traverseLoop (fun i => decide (t.rngend ≤ 4096 + i * 8192))
        (fun i v =>
          if t.rngoff < 4096 + i * 8192 + 8192 then
            traverseSlot E t (rbTraverse E t 0) 0 (.fil f (.dir (Fin.ofNat 20 i))) (4096 + i * 8192) v
          else return v) count k v) (fun _ _ => False) (FailedClean E w) w := by
    intro count
    induction count with
    | zero =>
        intro k hk hle
        have := i.2
        omega
    | succ count ih =>
        intro k hk hle
        rw [traverseLoop, if_neg (by simp only [decide_eq_true_eq]; omega), wp_bind]
        rcases Nat.lt_or_ge k i.1 with hlt | hge
        · rw [if_neg (by omega), wp_pure]
          exact ih (k + 1) (by omega) hlt
        · obtain rfl : k = i.1 := by omega
          have hi : Fin.ofNat 20 i.1 = i := Fin.ext (Nat.mod_eq_of_lt i.2)
          rw [if_pos (by omega), hi]
          have hfail := wp_traverseSlot_missing 0 w (.fil f (.dir i)) (4096 + i.1 * 8192) v hw
            (hw.fil f (.dir i)) (by omega) (by rw [show span 0 = 8192 from rfl]; omega) hmiss
          exact wp_mono hfail (fun _ _ hF => absurd hF id) fun _ _ hF => hF
  exact key 20 0 rfl (Nat.zero_le _)

theorem wp_traverseInd_missing {f : ℕ} {s : FSlot} (hw : HeapOk w)
    (hbase : s.base ≤ t.rngoff) (htop : t.rngoff < s.top)
    (hmiss : Missing E w t.rngsize s.level (w.slotName (.fil f s)) (t.rngoff - s.base)) (v : V) :
    ∀ l : List FSlot, s ∈ l → l.Pairwise (fun a b => a.top ≤ b.base) →
      wp (traverseInd E t f l v) (fun _ _ => False) (FailedClean E w) w := by
  have hend : t.rngend = t.rngoff + t.rngsize := rfl
  have hinside := hmiss.inside
  intro l
  induction l with
  | nil => exact fun hs => absurd hs List.not_mem_nil
  | cons s' l ih =>
      intro hs hsort
      rw [traverseInd]
      obtain ⟨hfirst, hrest⟩ := List.pairwise_cons.1 hsort
      by_cases hss : s' = s
      · subst hss
        rw [if_pos htop]
        have hfail := wp_traverseSlot_missing s'.level w (.fil f s') s'.base v hw (hw.fil f s') hbase
          htop hmiss
        exact wp_seq hfail (fun _ _ hF => absurd hF id) fun _ _ hF => hF
      · have hin : s ∈ l := (List.mem_cons.1 hs).resolve_left (Ne.symm hss)
        have hbefore := hfirst s hin
        rw [if_neg (by omega), pure_bind]
        simp only
        rw [if_neg (by omega)]
        exact ih hin hrest

/-- The indirect slots in front of the range. -/
theorem traverseInd_beyond {f : ℕ} (v : V) :
    ∀ l : List FSlot, (∀ s ∈ l, s.top ≤ t.rngoff ∧ s.top < t.rngend) →
      wp (traverseInd E t f l v) (fun _ _ => False) (FailedClean E w) w := by
  intro l
  induction l with
  | nil => exact fun _ => ⟨fun _ => by simp, .refl w⟩
  | cons s l ih =>
      intro hl
      have hs := hl s List.mem_cons_self
      rw [traverseInd, if_neg (by omega), pure_bind]
      simp only
      rw [if_neg (by omega)]
      exact ih fun s' hs' => hl s' (List.mem_cons_of_mem _ hs')

/-- **A traversal of a file that fails before its first block.** -/
theorem wp_rbTraverseFile_failsFirst {f : ℕ} (hw : HeapOk w)
    (h : FailsFirst E w f t.rngoff t.rngsize) (v : V) :
    wp (rbTraverseFile E t f v) (fun _ _ => False) (FailedClean E w) w := by
  have hend : t.rngend = t.rngoff + t.rngsize := rfl
  have hsin : FSlot.sin.base = 167936 := rfl
  have hdin : FSlot.din.base = 2265088 := rfl
  have htin : FSlot.tin.base = 539136000 := rfl
  have hsinTop := FSlot.top_sin
  have hdinTop := FSlot.top_din
  have htinTop := FSlot.top_tin
  have hmax := maxSize_eq
  have hoff : 4096 ≤ t.rngoff ∧ 4096 < t.rngend := by
    rcases h with hle | ⟨s, hbase, -, hmiss⟩
    · omega
    · have := s.base_ge
      have := hmiss.inside
      omega
  have hfar : 167936 ≤ t.rngoff → 167936 < t.rngend := by
    intro hge
    rcases h with hle | ⟨s, hbase, htop, hmiss⟩
    · omega
    · have := hmiss.inside
      cases s with
      | dir i =>
          have := FSlot.top_dir i
          have := i.2
          omega
      | _ => omega
  -- Where the range begins after the direct blocks.
  have hind : 167936 ≤ t.rngoff → wp (traverseInd E t f [.sin, .din, .tin] v) (fun _ _ => False)
      (FailedClean E w) w := by
    intro hge
    rcases h with hle | ⟨s, hbase, htop, hmiss⟩
    · refine traverseInd_beyond v _ ?_
      simp only [List.mem_cons, List.not_mem_nil, or_false, forall_eq_or_imp, forall_eq]
      omega
    · have hs : s ∈ [FSlot.sin, .din, .tin] := by
        cases s with
        | dir i =>
            have := FSlot.top_dir i
            have := i.2
            omega
        | _ => simp
      refine wp_traverseInd_missing hw hbase htop hmiss v _ hs ?_
      simp only [List.pairwise_cons, List.mem_cons, List.not_mem_nil, or_false, forall_eq_or_imp,
        forall_eq, IsEmpty.forall_iff, implies_true, List.Pairwise.nil, and_true]
      omega
  rw [rbTraverseFile, traverseInl, if_neg (by omega), pure_bind, traverseRefs, if_neg (by omega)]
  rcases Nat.lt_or_ge t.rngoff 167936 with hlt | hge
  · obtain ⟨i, hbase, htop, hmiss⟩ : ∃ i, (FSlot.dir i).base ≤ t.rngoff ∧ t.rngoff < (FSlot.dir i).top ∧
        Missing E w t.rngsize 0 (w.slotName (.fil f (.dir i))) (t.rngoff - (FSlot.dir i).base) := by
      rcases h with hle | ⟨s, hbase, htop, hmiss⟩
      · omega
      · cases s with
        | dir i => exact ⟨i, hbase, htop, hmiss⟩
        | sin => omega
        | din => omega
        | tin => omega
    have hfail := wp_traverseDir_missing i hw hbase htop hmiss v
    rw [if_neg (by omega)]
    exact wp_seq (wp_seq hfail (fun _ _ hF => absurd hF id) fun _ _ hF => hF)
      (fun _ _ hF => absurd hF id) fun _ _ hF => hF
  · rw [if_pos hge, pure_bind]
    simp only
    rw [if_neg (by omega)]
    exact wp_seq (hind hge) (fun _ _ hF => absurd hF id) fun _ _ hF => hF

end missing

/-! ### What has been read does not count -/

section unchanged

variable {w w' : World}

theorem Loaded.blkBytes (h : Loaded E w w') (hw : HeapOk w) :
    ∀ (level n o : ℕ), n < w.nblk → blkBytes E w' level n o = UTFS.blkBytes E w level n o := by
  intro level
  induction level with
  | zero =>
      intro n o hn
      simp only [UTFS.blkBytes, h.blk n hn]
  | succ level ih =>
      intro n o hn
      simp only [UTFS.blkBytes, h.blk n hn, h.log]
      split
      case isFalse => rfl
      case isTrue hi =>
        cases hc : (w.blk n).blkobj ⟨o / span level, hi⟩ with
        | none => rfl
        | some c => exact ih c _ (hw.sub n _ c hn hc)

/-- The nodes that are reached exist. -/
theorem Reaches.lt (hw : HeapOk w) {root n : ℕ} (h : Reaches w root (.blk n)) : n < w.nblk := by
  generalize ho : Obj.blk n = o at h
  induction h generalizing n with
  | root => simp at ho
  | entry => simp at ho
  | slot _ hn => exact (Obj.blk.inj ho) ▸ hw.fil _ _ _ hn
  | sub _ hn ih => exact (Obj.blk.inj ho) ▸ hw.sub _ _ _ (ih rfl) hn

/-- The same nodes are reached. -/
theorem Loaded.reaches (h : Loaded E w w') (hw : HeapOk w) {root : ℕ} {o : Obj} :
    Reaches w' root o ↔ Reaches w root o := by
  constructor
  · intro hr
    induction hr with
    | root => exact .root
    | entry _ hmem ih => exact .entry ih (h.fil ▸ hmem)
    | slot _ hn ih => exact .slot ih (h.fil ▸ hn)
    | sub _ hn ih =>
        rw [h.blk _ (ih.lt hw)] at hn
        exact .sub ih hn
  · intro hr
    induction hr with
    | root => exact .root
    | entry _ hmem ih => exact .entry ih (h.fil ▸ hmem)
    | slot _ hn ih => exact .slot ih (h.fil ▸ hn)
    | sub hm hn ih =>
        rw [← h.blk _ (hm.lt hw)] at hn
        exact .sub ih hn

/-- **Reading nodes changes nothing that counts.** -/
theorem Loaded.unchanged (h : Loaded E w w') (hw : HeapOk w) (f : ℕ) : Unchanged E f w w' where
  bytes a := by
    refine fileBytes_congr (by rw [h.fil]) ?_ a
    intro s o _
    simp only [slotBytes, World.slotObj, World.slotRef, h.fil, h.log]
    cases hn : (w.fil f).objs s with
    | none => rfl
    | some n => exact h.blkBytes hw s.level n o (hw.fil f s n hn)
  size := by rw [h.fil]
  blocks := by rw [h.fil]
  dirty root := by
    ext o
    have hflag : Reaches w root o → w'.isDirty o = w.isDirty o := by
      intro hr
      cases o with
      | fil g => simp only [World.isDirty, h.fil]
      | blk n => simp only [World.isDirty, h.blk n (hr.lt hw)]
    constructor
    · rintro ⟨hr, hd⟩
      have hr₀ := (h.reaches hw).1 hr
      exact ⟨hr₀, (hflag hr₀).symm.trans hd⟩
    · rintro ⟨hr, hd⟩
      exact ⟨(h.reaches hw).2 hr, (hflag hr).trans hd⟩

/-- **When a failing write changes nothing.**  A write that fails before its first block does not.  And
where every block is in memory or in the store, so that only the limit of the file can be the reason, a
failing write that changes nothing writes the bytes that are there already. -/
theorem failed_write_unchanged (hw : HeapOk w) (f : ℕ) (data : List UInt8) (off : ℕ) :
    (FailsFirst E w f off data.length →
      ∃ e w', fileWrite E f data off w = .error e w' ∧ Unchanged E f w w') ∧
    (BInv E ∅ w → f < w.nfil → ∀ e w', fileWrite E f data off w = .error e w' → Unchanged E f w w' →
      ∀ a, off ≤ a → a < off + data.length → a < maxSize →
        fileBytes E w f a = data.getD (a - off) 0) := by
  constructor
  · intro hfirst
    have hfail : wp (fileWrite E f data off) (fun _ _ => False) (FailedClean E w) w := by
      rw [fileWrite, wp_tryCatch]
      refine wp_seq (wp_rbTraverseFile_failsFirst (t := writeTraversal f data off) hw hfirst 0)
        (fun _ _ hF => absurd hF id) ?_
      rintro e w' ⟨hexn, hload⟩
      split
      case h_1 x => exact absurd rfl (hexn x)
      case h_2 => exact ⟨hexn, hload⟩
    simp only [wp] at hfail
    cases hrun : fileWrite E f data off w with
    | ok r w' => simp [hrun] at hfail
    | error e w' =>
        simp only [hrun] at hfail
        exact ⟨e, w', rfl, hfail.2.unchanged hw f⟩
  · intro hinv hf e w' hrun hsame a hle hlt ha
    have hpost := wp_error (wp_fileWrite hinv hf data off) hrun
    rw [← hsame.bytes a, hpost.2.1.bytes a ha, wrote, if_pos ⟨hle, hlt⟩]

end unchanged

/-- A file whose first direct block has been lost. -/
def lostFile : World := sampleFile.setSlotRef (.fil 0 (.dir 0)) fun _ => 1

theorem sampleFile_heapOk : HeapOk sampleFile where
  fil f s n hn := by
    have hnone : (sampleFile.fil f).objs s = none := by
      by_cases hf : f = 0
      · subst hf
        rfl
      · have hnew : (World.context [] [] id).nfil = 0 := rfl
        simp only [sampleFile, World.allocFil, hnew]
        rw [setFil_of_ne _ _ hf]
        rfl
    rw [hnone] at hn
    simp at hn
  sub m i n hm hn := by
    have hlt : m < 4 := hm
    have hbelow : (sampleFile.blk m).blkobj i = if m = 0 then none else some (m - 1) := by
      interval_cases m <;> rfl
    rw [hbelow] at hn
    split at hn
    case isTrue => simp at hn
    case isFalse =>
      obtain rfl : m - 1 = n := by simpa using hn
      exact Nat.lt_of_le_of_lt (Nat.sub_le m 1) hm
  key r n hn := by
    have hnone : sampleFile.cache.nodemap r = none := rfl
    rw [hnone] at hn
    simp at hn

theorem lostFile_heapOk : HeapOk lostFile where
  fil f s n hn := by
    by_cases hf : f = 0
    · subst hf
      exact sampleFile_heapOk.fil 0 s n hn
    · simp only [lostFile, World.setSlotRef] at hn
      rw [setFil_of_ne _ _ hf] at hn
      exact sampleFile_heapOk.fil f s n hn
  sub := sampleFile_heapOk.sub
  key := sampleFile_heapOk.key

/-- The same file, where the block is stored but does not match its reference. -/
def damagedFile : World := { lostFile with log := [.put (fun _ => 1) (fun _ => 0) (.blk 0)] }

theorem damagedFile_heapOk : HeapOk damagedFile :=
  ⟨lostFile_heapOk.fil, lostFile_heapOk.sub, lostFile_heapOk.key⟩

/-- The first direct block is lost. -/
theorem failsFirst_dir {w : World} {size : ℕ} (hname : w.slotName (.fil 0 (.dir 0)) = (none, fun _ => 1))
    (hcache : w.cache.nodemap (fun _ => 1) = none) (hintact : ¬ Intact .sample w.log fun _ => 1) :
    FailsFirst .sample w 0 5000 size := by
  have hne : (fun _ => 1 : BlockRef) ≠ BlockRef.nil := fun h => absurd (congrFun h 0) (by decide)
  refine .inr ⟨.dir 0, by decide, by decide, Nat.lt_add_right size (by decide), ?_⟩
  rw [hname]
  exact ⟨by simp only [World.blkOf, hcache], hne, hintact⟩

/-- Writes beyond the limit, of a byte and of none; and writes to a block that is not stored, also of no bytes,
and to one that is damaged. -/
theorem failed_write_unchanged_sample :
    (∀ data ∈ [[7], []], ∃ e w', fileWrite .sample 0 data (maxSize + 1) sampleFile = .error e w' ∧
      Unchanged .sample 0 sampleFile w') ∧
    (∀ data ∈ [[7], []], ∃ e w', fileWrite .sample 0 data 5000 lostFile = .error e w' ∧
      Unchanged .sample 0 lostFile w') ∧
    ∃ e w', fileWrite .sample 0 [7] 5000 damagedFile = .error e w' ∧ Unchanged .sample 0 damagedFile w' := by
  refine ⟨fun data _ => ?_, fun data _ => ?_, ?_⟩
  · exact (failed_write_unchanged sampleFile_heapOk 0 data _).1 (.inl (by omega))
  · refine (failed_write_unchanged lostFile_heapOk 0 data _).1 (failsFirst_dir rfl rfl ?_)
    rintro ⟨x, hx, -⟩
    cases hx
  · refine (failed_write_unchanged damagedFile_heapOk 0 _ _).1 (failsFirst_dir rfl rfl ?_)
    rintro ⟨x, hx, hdig⟩
    cases hx
    exact absurd (congrFun hdig 0) (by decide)

/-- A write of two bytes of which only the first is below the limit. -/
theorem not_failed_write_unchanged_limit :
    ∃ e w', fileWrite .sample 0 [7, 8] (maxSize - 1) sampleFile = .error e w' ∧
      ¬ Unchanged .sample 0 sampleFile w' := by
  have hf : 0 < sampleFile.nfil := by decide
  obtain ⟨e, w', hrun⟩ := exists_of_raises (m := fileWrite .sample 0 [7, 8] (maxSize - 1))
    (s := sampleFile) (by decide +kernel)
  refine ⟨e, w', hrun, fun hsame => ?_⟩
  have hpost := wp_error (wp_fileWrite sampleFile_inv hf [7, 8] (maxSize - 1)) hrun
  have hmax := maxSize_eq
  have hbyte := hpost.2.1.bytes (maxSize - 1) (by omega)
  rw [hsame.bytes, wrote, if_pos (by simp), Nat.sub_self] at hbyte
  -- The byte was zero: the file is empty.
  have hzero : fileBytes .sample sampleFile 0 (maxSize - 1) = 0 := by
    obtain ⟨s, o, hso, ho⟩ := exists_fslot (a := maxSize - 1) (by omega) (by omega)
    rw [hso, fileBytes_slot sampleFile 0 ho]
    exact slotBytes_hole sampleFile_inv rfl rfl o
  rw [hzero] at hbyte
  simp at hbyte

end UTFS

end Utopfs
