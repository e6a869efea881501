/-
**What the block nodes mean, and when they are in order.**

The bytes under a node are those of the nodes its handles lead to, and where there is no handle those
of the stored blocks its references lead to.  Since the level goes down with each step, both are
functions by recursion on the level.

The invariant says that the handles form trees: a handle leads to a dirty node that is not in the
clean cache and that no other slot holds.  It says that the clean cache holds clean nodes under their
own reference, that a clean node agrees with its stored block, and that the store is closed: a
reference in a stored block names a stored block of the level below.

A traversal that changes a block has the nodes above it *in hand*: a node found in the clean cache is
taken out of it only after the blocks below it have been changed.  The invariant is therefore relative
to a set `X` of nodes in hand, which may be dirty in the cache, or clean in a slot.

Main definitions:

* `UTFS.storeBytes`, `UTFS.blkBytes`, `UTFS.slotBytes` — the bytes under a stored block, a node, a slot;
* `UTFS.DiskOk` — the store is closed and its references were fresh;
* `UTFS.Coherent` — a node agrees with its stored block;
* `UTFS.BInv` — the invariant.

Main results:

* `UTFS.storeBytes_mono` — later puts do not change what is stored;
* `UTFS.blkBytes_frame` — changing nodes does not change the bytes of nodes that do not lead to them.
-/

import Mathlib.Data.Set.Insert
import Mathlib.Tactic
import Utopfs.BlockNodeCache
import Utopfs.FileNode

set_option relaxedAutoImplicit false
set_option autoImplicit false

namespace Utopfs

namespace UTFS

variable (E : Env)

/-! ### The store -/

/-- A byte of an array, zero past its end. -/
def byteAt {k : ℕ} (b : Fin k → UInt8) (o : ℕ) : UInt8 := if h : o < k then b ⟨o, h⟩ else 0

/-- The plain contents of the block stored under a reference. -/
def decode (log : List Effect) (r : BlockRef) : Option Block :=
  (getBlock r log).map fun x => E.decrypt r.iv x.1

/-- The bytes under a stored block of a level. -/
def storeBytes (log : List Effect) : ℕ → BlockRef → ℕ → UInt8
  | 0, r, o =>
      match decode E log r with
      | some b => byteAt b o
      | none => 0
  | level + 1, r, o =>
      match decode E log r with
      | some b =>
          if h : o / span level < 256 then
            storeBytes log level (unpackRefs b ⟨o / span level, h⟩) (o % span level)
          else 0
      | none => 0

/-- A block of that kind is stored under the reference. -/
def Stored (log : List Effect) (r : BlockRef) (k : Kind) : Prop := ∃ b, getBlock r log = some (b, k)

theorem Stored.kind_eq {log : List Effect} {r : BlockRef} {k k' : Kind} (h : Stored log r k)
    (h' : Stored log r k') : k = k' := by
  obtain ⟨b, hb⟩ := h
  obtain ⟨b', hb'⟩ := h'
  rw [hb] at hb'
  exact (Prod.mk.inj (Option.some.inj hb')).2

/-- Every block of the first store is in the second. -/
def LogLe (log log' : List Effect) : Prop :=
  ∀ r x, getBlock r log = some x → getBlock r log' = some x

theorem LogLe.refl (log : List Effect) : LogLe log log := fun _ _ h => h

theorem LogLe.trans {l₁ l₂ l₃ : List Effect} (h : LogLe l₁ l₂) (h' : LogLe l₂ l₃) : LogLe l₁ l₃ :=
  fun r x hx => h' r x (h r x hx)

theorem LogLe.stored {log log' : List Effect} (h : LogLe log log') {r : BlockRef} {k : Kind}
    (hs : Stored log r k) : Stored log' r k := by
  obtain ⟨b, hb⟩ := hs
  exact ⟨b, h r _ hb⟩

theorem LogLe.decode {log log' : List Effect} (h : LogLe log log') {r : BlockRef} {k : Kind}
    (hs : Stored log r k) : decode E log' r = decode E log r := by
  obtain ⟨b, hb⟩ := hs
  rw [UTFS.decode, UTFS.decode, h r _ hb, hb]

/-- The store: nothing is stored under the nil reference, a block matches the digest in its
reference, the references in a stored block name stored blocks of the level below, and the random
bytes to come are distinct and have not been used. -/
structure DiskOk (log : List Effect) (rand : List IV) : Prop where
  nilFree : getBlock .nil log = none
  digest : ∀ r b k, getBlock r log = some (b, k) → E.digest b = r.dig
  subRefs : ∀ r b level, getBlock r log = some (b, .blk (level + 1)) →
    ∀ i, unpackRefs (E.decrypt r.iv b) i ≠ .nil →
      Stored log (unpackRefs (E.decrypt r.iv b) i) (.blk level)
  fileRefs : ∀ r b, getBlock r log = some (b, .inode) →
    ∀ s, unpackRef (E.decrypt r.iv b) s ≠ .nil →
      Stored log (unpackRef (E.decrypt r.iv b) s) (.blk s.level)
  fresh : ∀ r x, getBlock r log = some x → r.iv ∉ rand
  randNodup : rand.Nodup
  randNe : ∀ iv ∈ rand, iv ≠ fun _ => 0

variable {E}

theorem decode_nil {log : List Effect} (h : getBlock .nil log = none) : decode E log .nil = none := by
  simp [decode, h]

theorem storeBytes_nil {log : List Effect} (h : getBlock .nil log = none) (level o : ℕ) :
    storeBytes E log level .nil o = 0 := by
  cases level with
  | zero => simp only [storeBytes, decode_nil h]
  | succ level => simp only [storeBytes, decode_nil h]

/-- **Later puts do not change what is stored.** -/
theorem storeBytes_mono {log log' : List Effect} {rand : List IV} (hd : DiskOk E log rand)
    (hle : LogLe log log') (hnil : getBlock .nil log' = none) :
    ∀ (level : ℕ) (r : BlockRef), (r ≠ .nil → Stored log r (.blk level)) → ∀ o,
      storeBytes E log' level r o = storeBytes E log level r o := by
  intro level
  induction level with
  | zero =>
      intro r hr o
      by_cases h : r = .nil
      · subst h
        rw [storeBytes_nil hnil, storeBytes_nil hd.nilFree]
      · simp only [storeBytes, hle.decode E (hr h)]
  | succ level ih =>
      intro r hr o
      by_cases h : r = .nil
      · subst h
        rw [storeBytes_nil hnil, storeBytes_nil hd.nilFree]
      · obtain ⟨b, hb⟩ := hr h
        have hdec : decode E log r = some (E.decrypt r.iv b) := by simp [decode, hb]
        simp only [storeBytes, hle.decode E (hr h), hdec]
        split
        case isTrue hi => exact ih _ (hd.subRefs r b level hb _) _
        case isFalse => rfl

variable (E)

/-! ### Nodes and slots -/

/-- The bytes under a block node of a level. -/
def blkBytes (w : World) : ℕ → ℕ → ℕ → UInt8
  | 0, n, o => byteAt (w.blk n).data o
  | level + 1, n, o =>
      if h : o / span level < 256 then
        match (w.blk n).blkobj ⟨o / span level, h⟩ with
        | some c => blkBytes w level c (o % span level)
        | none =>
            storeBytes E w.log level ((w.blk n).blkref ⟨o / span level, h⟩) (o % span level)
      else 0

/-- The bytes under a slot for blocks of a level. -/
def slotBytes (w : World) (level : ℕ) (s : Slot) (o : ℕ) : UInt8 :=
  match w.slotObj s with
  | some c => blkBytes E w level c o
  | none => storeBytes E w.log level (w.slotRef s) o

variable {E}

theorem add_div_span {level o : ℕ} (i : ℕ) (ho : o < span level) :
    (i * span level + o) / span level = i := by
  rw [Nat.mul_comm, Nat.mul_add_div (span_pos level), Nat.div_eq_of_lt ho, Nat.add_zero]

theorem add_mod_span {level o : ℕ} (i : ℕ) (ho : o < span level) :
    (i * span level + o) % span level = o := by
  rw [Nat.mul_comm, Nat.mul_add_mod, Nat.mod_eq_of_lt ho]

/-- The bytes of an indirect node are those of its slots. -/
theorem blkBytes_sub (w : World) (level n : ℕ) (i : Fin 256) {o : ℕ} (ho : o < span level) :
    blkBytes E w (level + 1) n (i * span level + o) = slotBytes E w level (.sub n i) o := by
  have hi : (⟨(i * span level + o) / span level, by rw [add_div_span _ ho]; exact i.2⟩ : Fin 256)
      = i := Fin.ext (add_div_span _ ho)
  have hlt : (i * span level + o) / span level < 256 := by rw [add_div_span _ ho]; exact i.2
  simp only [blkBytes, slotBytes, World.slotObj, World.slotRef, hlt, dif_pos, hi, add_mod_span _ ho]

theorem storeBytes_sub {log : List Effect} {r : BlockRef} {b : Block} (hb : decode E log r = some b)
    (level : ℕ) (i : Fin 256) {o : ℕ} (ho : o < span level) :
    storeBytes E log (level + 1) r (i * span level + o) =
      storeBytes E log level (unpackRefs b i) o := by
  have hi : (⟨(i * span level + o) / span level, by rw [add_div_span _ ho]; exact i.2⟩ : Fin 256)
      = i := Fin.ext (add_div_span _ ho)
  have hlt : (i * span level + o) / span level < 256 := by rw [add_div_span _ ho]; exact i.2
  simp only [storeBytes, hb, hlt, dif_pos, hi, add_mod_span _ ho]

/-- Every offset under an indirect node is an offset under one of its slots. -/
theorem exists_slot_offset {level o : ℕ} (ho : o < span (level + 1)) :
    ∃ (i : Fin 256) (o' : ℕ), o' < span level ∧ o = i * span level + o' := by
  have hlt : o / span level < 256 := by
    rw [Nat.div_lt_iff_lt_mul (span_pos level)]
    exact ho
  refine ⟨⟨o / span level, hlt⟩, o % span level, Nat.mod_lt _ (span_pos level), ?_⟩
  rw [Nat.mul_comm]
  exact (Nat.div_add_mod o (span level)).symm

variable (E)

/-- The slots that count: those of file nodes, and of indirect nodes other than the zero
singletons. -/
def World.Live (w : World) : Slot → Prop
  | .fil f _ => f < w.nfil
  | .sub n _ => n < w.nblk ∧ (w.blk n).zero = false ∧ 0 < (w.blk n).level

/-- A node agrees with the block stored under its reference. -/
structure Coherent (w : World) (n : ℕ) : Prop where
  stored : Stored w.log (w.blk n).ref (.blk (w.blk n).level)
  data : (w.blk n).level = 0 → decode E w.log (w.blk n).ref = some (w.blk n).data
  blkref : 0 < (w.blk n).level →
    (decode E w.log (w.blk n).ref).map unpackRefs = some (w.blk n).blkref
  bytes : ∀ o < span (w.blk n).level,
    blkBytes E w (w.blk n).level n o = storeBytes E w.log (w.blk n).level (w.blk n).ref o

/-- A handle in a slot. -/
structure ObjOk (X : Set ℕ) (w : World) (s : Slot) (n : ℕ) : Prop where
  lt : n < w.nblk
  zero : (w.blk n).zero = false
  level : (w.blk n).level = w.slotLevel s
  dirty : n ∉ X → (w.blk n).isdirty = true
  uncached : ∀ r, w.cache.nodemap r ≠ some (.blk n)

/-- A block node in the clean cache. -/
structure KeyOk (X : Set ℕ) (w : World) (r : BlockRef) (n : ℕ) : Prop where
  lt : n < w.nblk
  zero : (w.blk n).zero = false
  ref : (w.blk n).ref = r
  clean : n ∉ X → (w.blk n).isdirty = false
  stored : Stored w.log r (.blk (w.blk n).level)

/-- A zero singleton: its data are zero, and it leads to zero singletons of the level below. -/
structure ZeroOk (w : World) (n : ℕ) : Prop where
  data : (w.blk n).level = 0 → (w.blk n).data = fun _ => 0
  obj : ∀ level, (w.blk n).level = level + 1 → ∀ i, ∃ z, (w.blk n).blkobj i = some z ∧
    z < w.nblk ∧ (w.blk z).zero = true ∧ (w.blk z).level = level

/-- Handles to block nodes. -/
def Obj.IsBlk (o : Obj) : Prop := ∃ n, o = .blk n

/-- **The invariant of the block nodes**, with the nodes of `X` in hand. -/
structure BInv (X : Set ℕ) (w : World) : Prop where
  disk : DiskOk E w.log w.rand
  rep : CacheRep Obj.IsBlk w.cache
  obj : ∀ s n, w.Live s → w.slotObj s = some n → ObjOk X w s n
  objUniq : ∀ s s' n, w.Live s → w.Live s' → w.slotObj s = some n → w.slotObj s' = some n → s = s'
  refOk : ∀ s, w.Live s → w.slotRef s ≠ .nil → Stored w.log (w.slotRef s) (.blk (w.slotLevel s))
  key : ∀ r n, w.cache.nodemap r = some (.blk n) → KeyOk X w r n
  keyFil : ∀ r f, w.cache.nodemap r = some (.fil f) → Stored w.log r .inode
  nodeIv : ∀ n, n < w.nblk → (w.blk n).zero = false → (w.blk n).ref.iv ∉ w.rand
  nodeKind : ∀ n, n < w.nblk → (w.blk n).zero = false →
    ∀ x, getBlock (w.blk n).ref w.log = some x → x.2 = .blk (w.blk n).level
  clean : ∀ n, n < w.nblk → (w.blk n).zero = false → n ∉ X → (w.blk n).isdirty = false →
    Coherent E w n
  zero : ∀ n, n < w.nblk → (w.blk n).zero = true → ZeroOk w n
  zobj : ∀ level z, w.zobj level = some z →
    z < w.nblk ∧ (w.blk z).zero = true ∧ (w.blk z).level = level
  hand : ∀ p ∈ X, p < w.nblk ∧ (w.blk p).zero = false
  upClosed : ∀ p ∈ X, ∀ q i, w.Live (.sub q i) → (w.blk q).blkobj i = some p → q ∈ X

variable {E}

/-- A dirty handle is the handle of a node in a slot of the level above. -/
theorem BInv.slotLevel_sub {X : Set ℕ} {w : World} (h : BInv E X w) {p c : ℕ} {i : Fin 256}
    (hlive : w.Live (.sub p i)) (hc : (w.blk p).blkobj i = some c) :
    (w.blk c).level + 1 = (w.blk p).level := by
  have h₁ := (h.obj _ c hlive hc).level
  have h₂ : 0 < (w.blk p).level := hlive.2.2
  simp only [World.slotLevel] at h₁
  omega

/-! ### Frames -/

/-- **Changing nodes does not change the bytes of nodes that do not lead to them.** -/
theorem blkBytes_frame {X : Set ℕ} {w w' : World} (h : BInv E X w) (hlog : w'.log = w.log)
    (Z : Set ℕ)
    (hup : ∀ p ∈ Z, ∀ q i, w.Live (.sub q i) → (w.blk q).blkobj i = some p → q ∈ Z)
    (hsame : ∀ m, m < w.nblk → m ∉ Z → w'.blk m = w.blk m) :
    ∀ (level m : ℕ), m < w.nblk → (w.blk m).zero = false → (w.blk m).level = level → m ∉ Z →
      ∀ o, blkBytes E w' level m o = blkBytes E w level m o := by
  intro level
  induction level with
  | zero =>
      intro m hm _ _ hZ o
      simp only [blkBytes, hsame m hm hZ]
  | succ level ih =>
      intro m hm hz hl hZ o
      simp only [blkBytes, hsame m hm hZ, hlog]
      split
      case isFalse => rfl
      case isTrue hi =>
        have hlive : w.Live (.sub m ⟨o / span level, hi⟩) := ⟨hm, hz, by omega⟩
        cases hc : (w.blk m).blkobj ⟨o / span level, hi⟩ with
        | none => rfl
        | some c =>
            have hobj := h.obj _ c hlive hc
            refine ih c hobj.lt hobj.zero ?_ ?_ _
            · have := h.slotLevel_sub hlive hc
              omega
            · exact fun hcZ => hZ (hup c hcZ m _ hlive hc)

/-- The bytes depend on the block nodes and on the store only. -/
theorem blkBytes_congr {w w' : World} (hblk : w'.blk = w.blk) (hlog : w'.log = w.log) :
    ∀ (level n o : ℕ), blkBytes E w' level n o = blkBytes E w level n o := by
  intro level
  induction level with
  | zero =>
      intro n o
      simp only [blkBytes, hblk]
  | succ level ih =>
      intro n o
      simp only [blkBytes, hblk, hlog, ih]

theorem slotBytes_congr {w w' : World} (hblk : w'.blk = w.blk) (hlog : w'.log = w.log) {s : Slot}
    (hobj : w'.slotObj s = w.slotObj s) (href : w'.slotRef s = w.slotRef s) (level o : ℕ) :
    slotBytes E w' level s o = slotBytes E w level s o := by
  simp only [slotBytes, hobj, href, hlog]
  cases w.slotObj s with
  | none => rfl
  | some c => exact blkBytes_congr hblk hlog level c o

@[simp] theorem blkBytes_setCache (w : World) (c : BlockNodeCache) (level n o : ℕ) :
    blkBytes E (w.setCache c) level n o = blkBytes E w level n o :=
  @blkBytes_congr E w (w.setCache c) rfl rfl level n o

theorem Coherent.congr {w w' : World} {n : ℕ} (h : Coherent E w n) (hn : w'.blk n = w.blk n)
    (hlog : w'.log = w.log)
    (hbytes : ∀ o, blkBytes E w' (w.blk n).level n o = blkBytes E w (w.blk n).level n o) :
    Coherent E w' n := by
  constructor
  · rw [hn, hlog]
    exact h.stored
  · rw [hn, hlog]
    exact h.data
  · rw [hn, hlog]
    exact h.blkref
  · rw [hn, hlog]
    intro o ho
    rw [hbytes]
    exact h.bytes o ho

/-- Zero singletons read as zero. -/
theorem blkBytes_zero {X : Set ℕ} {w : World} (h : BInv E X w) :
    ∀ (level n : ℕ), n < w.nblk → (w.blk n).zero = true → (w.blk n).level = level →
      ∀ o, blkBytes E w level n o = 0 := by
  intro level
  induction level with
  | zero =>
      intro n hn hz hl o
      simp only [blkBytes, (h.zero n hn hz).data hl, byteAt]
      split <;> rfl
  | succ level ih =>
      intro n hn hz hl o
      simp only [blkBytes]
      split
      case isFalse => rfl
      case isTrue hi =>
        obtain ⟨z, hz', hzlt, hzz, hzl⟩ := (h.zero n hn hz).obj level hl ⟨o / span level, hi⟩
        rw [hz']
        exact ih z hzlt hzz hzl _

/-! ### Steps that keep the invariant -/

/-- The cache may get keys for file nodes that are stored there, besides forgetting keys and reordering
its list. -/
theorem BInv.setCacheFil {X : Set ℕ} {w : World} (h : BInv E X w) {c : BlockNodeCache}
    (hrep : CacheRep Obj.IsBlk c)
    (hmap : ∀ r o, c.nodemap r = some o → w.cache.nodemap r = some o ∨
      ((∃ f, o = .fil f) ∧ Stored w.log r .inode)) :
    BInv E X (w.setCache c) := by
  have hblk : ∀ r n, c.nodemap r = some (.blk n) → w.cache.nodemap r = some (.blk n) := by
    intro r n hr
    rcases hmap r _ hr with hr | ⟨⟨f, hf⟩, -⟩
    · exact hr
    · simp at hf
  refine ⟨h.disk, hrep, ?_, h.objUniq, h.refOk, ?_, ?_, h.nodeIv, h.nodeKind, ?_, ?_, h.zobj, h.hand,
    h.upClosed⟩
  · intro s n hs hn
    have ho := h.obj s n hs hn
    exact ⟨ho.lt, ho.zero, ho.level, ho.dirty, fun r hr => ho.uncached r (hblk r n hr)⟩
  · intro r n hr
    have hk := h.key r n (hblk r n hr)
    exact ⟨hk.lt, hk.zero, hk.ref, hk.clean, hk.stored⟩
  · intro r f hr
    rcases hmap r _ hr with hr | ⟨-, hs⟩
    · exact h.keyFil r f hr
    · exact hs
  · intro n hn hz hX hd
    exact (h.clean n hn hz hX hd).congr rfl rfl (blkBytes_setCache w _ _ _)
  · intro n hn hz
    exact ⟨(h.zero n hn hz).data, (h.zero n hn hz).obj⟩

/-- The cache may forget keys and reorder its list. -/
theorem BInv.setCache {X : Set ℕ} {w : World} (h : BInv E X w) {c : BlockNodeCache}
    (hrep : CacheRep Obj.IsBlk c)
    (hmap : ∀ r o, c.nodemap r = some o → w.cache.nodemap r = some o) :
    BInv E X (w.setCache c) := h.setCacheFil hrep fun r o hr => .inl (hmap r o hr)

theorem BInv.touched {X : Set ℕ} {w : World} (h : BInv E X w) {r : BlockRef} {o : Obj}
    (hr : w.cache.nodemap r = some o) : BInv E X (w.setCache (w.cache.touched o)) :=
  h.setCache (h.rep.touched hr) (fun _ _ hr => hr)

/-- A block node is held by one key. -/
theorem BInv.removed {X : Set ℕ} {w : World} (h : BInv E X w) {r : BlockRef} {n : ℕ}
    (hr : w.cache.nodemap r = some (.blk n)) :
    BInv E X (w.setCache (w.cache.removed r (.blk n))) := by
  refine h.setCache (h.rep.removed hr ?_) ?_
  · intro _ r' hr'
    rw [← (h.key r' n hr').ref, (h.key r n hr).ref]
  · intro r' o hr'
    by_cases heq : r' = r
    · subst heq
      simp [BlockNodeCache.removed] at hr'
    · simpa [BlockNodeCache.removed, Function.update_of_ne heq] using hr'

/-- A clean node that no slot holds may enter the cache. -/
theorem BInv.inserted {X : Set ℕ} {w : World} (h : BInv E X w) {n : ℕ} (hn : n < w.nblk)
    (hz : (w.blk n).zero = false) (hd : n ∉ X → (w.blk n).isdirty = false)
    (hst : Stored w.log (w.blk n).ref (.blk (w.blk n).level))
    (hfree : ∀ s, w.Live s → w.slotObj s ≠ some n) (hr : w.cache.nodemap (w.blk n).ref = none)
    (hunc : ∀ r, w.cache.nodemap r ≠ some (.blk n)) :
    BInv E X (w.setCache (w.cache.inserted (w.blk n).ref (.blk n))) where
  disk := h.disk
  rep := h.rep.inserted hr fun _ => hunc
  obj s m hs hm := by
    have ho := h.obj s m hs hm
    refine ⟨ho.lt, ho.zero, ho.level, ho.dirty, fun r hr => ?_⟩
    by_cases heq : r = (w.blk n).ref
    · subst heq
      have hmn : n = m := by simpa [BlockNodeCache.inserted] using hr
      subst hmn
      exact hfree s hs hm
    · exact ho.uncached r (by simpa [BlockNodeCache.inserted, Function.update_of_ne heq] using hr)
  objUniq := h.objUniq
  refOk := h.refOk
  key r m hr := by
    by_cases heq : r = (w.blk n).ref
    · subst heq
      have hmn : n = m := by simpa [BlockNodeCache.inserted] using hr
      subst hmn
      exact ⟨hn, hz, rfl, hd, hst⟩
    · have hk := h.key r m (by simpa [BlockNodeCache.inserted, Function.update_of_ne heq] using hr)
      exact ⟨hk.lt, hk.zero, hk.ref, hk.clean, hk.stored⟩
  keyFil r f hr := by
    by_cases heq : r = (w.blk n).ref
    · subst heq
      simp [BlockNodeCache.inserted] at hr
    · exact h.keyFil r f (by simpa [BlockNodeCache.inserted, Function.update_of_ne heq] using hr)
  nodeIv := h.nodeIv
  nodeKind := h.nodeKind
  clean m hm hmz hX hmd :=
    (h.clean m hm hmz hX hmd).congr rfl rfl (blkBytes_setCache w _ _ _)
  zero m hm hmz := ⟨(h.zero m hm hmz).data, (h.zero m hm hmz).obj⟩
  zobj := h.zobj
  hand := h.hand
  upClosed := h.upClosed

end UTFS

end Utopfs
