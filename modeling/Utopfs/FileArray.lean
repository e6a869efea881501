/-
**A file is a sparse array of bytes.**

Any number of file nodes share one context: the block store, the clean cache and the zero singletons.
They are created, written, read, flushed, and made again from the references that flushes returned,
in any order; keys may be dropped from the clean cache at any time, and a flush may run out of space
at any put.  Whatever happens, each file behaves as an array of bytes that is zero where nothing was
written.

Main definitions:

* `UTFS.FileOp`, `UTFS.FileOp.run`, `UTFS.trace` — the operations, and the trace of a run;
* `UTFS.SparseFile`, `UTFS.Spec`, `UTFS.Spec.Step`, `UTFS.Spec.Accepts` — the arrays, and the traces
  they allow;
* `UTFS.Refines` — the files of a world are the arrays of a specification.

Main results:

* `UTFS.Refines.step` — every operation keeps the refinement;
* `UTFS.trace_accepted` — every trace of the program is one of the arrays.
-/

import Utopfs.FileFlush
import Utopfs.Messages

set_option relaxedAutoImplicit false
set_option autoImplicit false

namespace Utopfs

namespace UTFS

open Prog

variable {E : Env}

/-! ### Runs of the program -/

/-- The operations on file nodes. -/
inductive FileOp
  | create (mode : UInt32) (uname gname : Str)
  | write (f : ℕ) (data : List UInt8) (off : ℕ)
  | read (f : ℕ) (buf : ℕ → UInt8) (size off : ℕ)
  | flush (f : ℕ)
  | evict (r : BlockRef)
  | reload (r : BlockRef)

/-- What an operation returns.  After a write the size of the file is looked up too. -/
inductive FileResult
  | node (f : ℕ)
  | written (count : ℤ) (size : ℕ)
  | bytes (count : ℤ) (buf : ℕ → UInt8)
  | ref (r : BlockRef)
  | done
  | threw (e : Exn)

variable (E) in
/-- The program for an operation. -/
def FileOp.run : FileOp → M FileResult
  | .create mode uname gname => do
      let f ← newFileNode mode uname gname
      return .node f
  | .write f data off => do
      let n ← fileWrite E f data off
      let w ← get
      return .written n (w.fil f).inode.size
  | .read f buf size off => do
      let r ← fileRead E f buf size off
      return .bytes r.1 r.2
  | .flush f => do
      let r ← bnFlushFile E f
      return .ref r
  | .evict r => do
      cacheRemove r
      return .done
  | .reload r => do
      let f ← loadFileNode E r
      return .node f

variable (E) in
/-- The operation is done, or fails. -/
def FileOp.exec (op : FileOp) (w : World) : FileResult × World :=
  match op.run E w with
  | .ok r w' => (r, w')
  | .error e w' => (.threw e, w')

variable (E) in
/-- The operations of a run with their results. -/
def trace : World → List FileOp → List (FileOp × FileResult)
  | _, [] => []
  | w, op :: ops => (op, (op.exec E w).1) :: trace (op.exec E w).2 ops

/-! ### Arrays -/

/-- A file as its user sees it. -/
structure SparseFile where
  size : ℕ
  byte : ℕ → UInt8

/-- A new file. -/
def SparseFile.empty : SparseFile := ⟨0, fun _ => 0⟩

/-- A write. -/
def SparseFile.write (a : SparseFile) (data : List UInt8) (off : ℕ) : SparseFile where
  size := max (off + data.length) a.size
  byte i := if off ≤ i ∧ i < off + data.length then data.getD (i - off) 0 else a.byte i

/-- The files, and the contents under the references that flushes have returned. -/
structure Spec where
  files : List SparseFile
  saved : List (BlockRef × SparseFile)

/-- No files yet. -/
def Spec.empty : Spec := ⟨[], []⟩

/-- The operations whose results are specified: they are about files that exist, write at least one
byte, and their range is shorter than `2 ^ 31` bytes and ends within the largest file. -/
def FileOp.Allowed (m : Spec) : FileOp → Prop
  | .create _ _ _ => True
  | .write f data off =>
      f < m.files.length ∧ data ≠ [] ∧ data.length < 2 ^ 31 ∧ off + data.length ≤ maxSize
  | .read f _ size off => f < m.files.length ∧ size < 2 ^ 31 ∧ off + size ≤ maxSize
  | .flush f => f < m.files.length
  | .evict _ => True
  | .reload r => ∃ a, (r, a) ∈ m.saved

/-- What the operations do to the arrays, and what they return. -/
inductive Spec.Step (m : Spec) : FileOp → FileResult → Spec → Prop
  | create (mode : UInt32) (uname gname : Str) :
      Step m (.create mode uname gname) (.node m.files.length)
        { m with files := m.files ++ [.empty] }
  | write {f : ℕ} {a : SparseFile} (data : List UInt8) (off : ℕ) (h : m.files[f]? = some a) :
      Step m (.write f data off) (.written data.length (max a.size (off + data.length)))
        { m with files := m.files.set f (a.write data off) }
  | read {f : ℕ} {a : SparseFile} (buf buf' : ℕ → UInt8) (size off : ℕ) (h : m.files[f]? = some a)
      (hbuf : ∀ j, j < min size (a.size - off) → buf' j = a.byte (off + j)) :
      Step m (.read f buf size off) (.bytes ((min size (a.size - off) : ℕ) : ℤ) buf') m
  | flush {f : ℕ} {a : SparseFile} (r : BlockRef) (h : m.files[f]? = some a) :
      Step m (.flush f) (.ref r) { m with saved := (r, a) :: m.saved }
  | noSpace (f : ℕ) (text : String) : Step m (.flush f) (.threw (.noSpaceError text)) m
  | internal (f : ℕ) (text : String) : Step m (.flush f) (.threw (.internalError text)) m
  | evict (r : BlockRef) : Step m (.evict r) .done m
  | reload {r : BlockRef} {a : SparseFile} (h : (r, a) ∈ m.saved) :
      Step m (.reload r) (.node m.files.length) { m with files := m.files ++ [a] }

/-- The results in the trace are those of the arrays, as long as the operations are allowed. -/
def Spec.Accepts : Spec → List (FileOp × FileResult) → Prop
  | _, [] => True
  | m, (op, r) :: l => op.Allowed m → ∃ m', m.Step op r m' ∧ m'.Accepts l

/-! ### The refinement -/

variable (E) in
/-- The block stored under a reference is a file with these contents. -/
structure SavedFile (w : World) (r : BlockRef) (a : SparseFile) (x : FileNode) : Prop where
  stored : Stored w.log r .inode
  decoded : decodeFile E w.log r = some x
  size : x.inode.size = a.size
  bytes : ∀ i, nodeBytes E w.log x i = a.byte i

variable (E) in
/-- **The files of the world are the arrays of the specification.** -/
structure Refines (w : World) (m : Spec) : Prop where
  inv : BInv E ∅ w
  zobj : ∀ l, l ≤ 3 → w.zobj l ≠ none
  noFil : ∀ r f, w.cache.nodemap r ≠ some (.fil f)
  nfil : w.nfil = m.files.length
  clean : ∀ f, f < w.nfil → (w.fil f).isdirty = false → FileCoherent E w f
  size : ∀ f a, m.files[f]? = some a → (w.fil f).inode.size = a.size
  bytes : ∀ f a, m.files[f]? = some a → ∀ i, fileBytes E w f i = a.byte i
  saved : ∀ r a, (r, a) ∈ m.saved → ∃ x, SavedFile E w r a x

section refines

variable {w w' : World} {m : Spec}

/-- What is saved stays saved. -/
theorem SavedFile.logLe {r : BlockRef} {a : SparseFile} {x : FileNode} {rand : List IV}
    (h : SavedFile E w r a x) (hd : DiskOk E w.log rand) (hle : LogLe w.log w'.log)
    (hnil : getBlock .nil w'.log = none) : SavedFile E w' r a x where
  stored := hle.stored h.stored
  decoded := (hle.decodeFile h.stored).trans h.decoded
  size := h.size
  bytes i := (nodeBytes_mono hd hle hnil (hd.decodeFile_refs h.stored h.decoded) i).trans (h.bytes i)

theorem SameFil.noFil {c c' : BlockNodeCache} (h : SameFil c c')
    (hc : ∀ r f, c.nodemap r ≠ some (.fil f)) (r : BlockRef) (f : ℕ) :
    c'.nodemap r ≠ some (.fil f) := fun hr => hc r f ((h.nodemap r f).1 hr)

theorem Refines.lt (h : Refines E w m) {f : ℕ} {a : SparseFile} (ha : m.files[f]? = some a) :
    f < w.nfil := by
  rw [h.nfil]
  exact (List.getElem?_eq_some_iff.1 ha).1

/-- A file node without handles is added. -/
theorem Refines.allocFil (h : Refines E w m) {x : FileNode} {a : SparseFile}
    (hobjs : ∀ s, x.objs s = none)
    (hrefs : ∀ s, x.refs s ≠ .nil → Stored w.log (x.refs s) (.blk s.level))
    (hclean : x.isdirty = false → FileCoherent E (w.allocFil x) w.nfil)
    (hsize : x.inode.size = a.size) (hbytes : ∀ i, nodeBytes E w.log x i = a.byte i) :
    Refines E (w.allocFil x) { m with files := m.files ++ [a] } := by
  have hinv := h.inv.allocFil hobjs hrefs
  have hcase : ∀ f b, (m.files ++ [a])[f]? = some b →
      m.files[f]? = some b ∨ (f = w.nfil ∧ b = a) := by
    intro f b hb
    rcases Nat.lt_or_ge f m.files.length with hf | hf
    · rw [List.getElem?_append_left hf] at hb
      exact .inl hb
    · rw [List.getElem?_append_right hf, List.getElem?_singleton] at hb
      split at hb
      case isTrue hz => exact .inr ⟨by rw [h.nfil]; omega, (Option.some.inj hb).symm⟩
      case isFalse => simp at hb
  refine ⟨hinv, h.zobj, h.noFil, ?_, ?_, ?_, ?_, ?_⟩
  · change w.nfil + 1 = _
    rw [List.length_append, List.length_singleton, h.nfil]
  · intro f hf hd
    rcases Nat.lt_succ_iff_lt_or_eq.1 hf with hlt | rfl
    · rw [allocFil_of_lt w x hlt] at hd
      exact (h.clean f hlt hd).logLe (.refl _) (allocFil_of_lt w x hlt)
    · rw [allocFil_self] at hd
      exact hclean hd
  · intro f b hb
    rcases hcase f b hb with hb | ⟨rfl, rfl⟩
    · rw [allocFil_of_lt w x (h.lt hb)]
      exact h.size f b hb
    · rw [allocFil_self]
      exact hsize
  · intro f b hb i
    rcases hcase f b hb with hb | ⟨rfl, rfl⟩
    · rw [fileBytes_allocFil w x (h.lt hb)]
      exact h.bytes f b hb i
    · rw [fileBytes_allocFil_self w hobjs]
      exact hbytes i
  · intro r b hb
    obtain ⟨y, hy⟩ := h.saved r b hb
    exact ⟨y, hy.logLe h.inv.disk (.refl _) h.inv.disk.nilFree⟩

/-- Nothing but new block nodes and the cache has changed. -/
theorem Refines.grew (h : Refines E w m) (hinv : BInv E ∅ w') (hg : Grew w w') : Refines E w' m := by
  have hlog := outer_log hg.outer
  have hnfil := outer_nfil hg.outer
  refine ⟨hinv, ?_, hg.cacheFil.noFil h.noFil, hnfil.trans h.nfil, ?_, ?_, ?_, ?_⟩
  · rw [outer_zobj hg.outer]
    exact h.zobj
  · intro f hf hd
    rw [hnfil] at hf
    rw [hg.fil] at hd
    refine (h.clean f hf hd).logLe ?_ (by rw [hg.fil])
    rw [hlog]
    exact .refl _
  · intro f a ha
    rw [hg.fil]
    exact h.size f a ha
  · intro f a ha i
    rw [hg.fileBytes h.inv (h.lt ha)]
    exact h.bytes f a ha i
  · intro r a ha
    obtain ⟨x, hx⟩ := h.saved r a ha
    refine ⟨x, hx.logLe h.inv.disk ?_ hinv.disk.nilFree⟩
    rw [hlog]
    exact .refl _

/-- A file has been flushed, perhaps not completely. -/
theorem Refines.flushed (h : Refines E w m) {f : ℕ} (hinv : BInv E ∅ w')
    (hf : FileFlushed E f w w') (hclean : (w'.fil f).isdirty = false → FileCoherent E w' f) :
    Refines E w' m := by
  refine ⟨hinv, ?_, hf.cacheFil.noFil h.noFil, hf.nfil.trans h.nfil, ?_, ?_, ?_, ?_⟩
  · have : w'.zobj = w.zobj := congrArg (fun x => x.2.2.1) hf.still
    rw [this]
    exact h.zobj
  · intro g hg hd
    rw [hf.nfil] at hg
    by_cases hgf : g = f
    · subst hgf
      exact hclean hd
    · rw [hf.other g hgf] at hd
      exact (h.clean g hg hd).logLe hf.logLe (hf.other g hgf)
  · intro g a ha
    rw [← h.size g a ha]
    by_cases hgf : g = f
    · subst hgf
      rw [hf.own]
    · rw [hf.other g hgf]
  · intro g a ha i
    rw [hf.bytes g (h.lt ha)]
    exact h.bytes g a ha i
  · intro r a ha
    obtain ⟨x, hx⟩ := h.saved r a ha
    exact ⟨x, hx.logLe h.inv.disk hf.logLe hinv.disk.nilFree⟩

/-- A flushed file is saved. -/
theorem Refines.saveFile (h : Refines E w m) {f : ℕ} {a : SparseFile} (ha : m.files[f]? = some a)
    (hco : FileCoherent E w f) : SavedFile E w (w.fil f).ref a (w.fil f).bare where
  stored := hco.stored
  decoded := hco.decoded
  size := h.size f a ha
  bytes i := by
    rw [nodeBytes_bare, ← fileBytes_eq_nodeBytes hco.objs]
    exact h.bytes f a ha i

/-- A file has been written. -/
theorem Refines.written (h : Refines E w m) {f : ℕ} {a : SparseFile} (ha : m.files[f]? = some a)
    {data : List UInt8} {off : ℕ} (hdata : data ≠ []) (hend : off + data.length ≤ maxSize)
    (hw : Written E f data off w w') :
    Refines E w' { m with files := m.files.set f (a.write data off) } ∧
      (w'.fil f).inode.size = max a.size (off + data.length) := by
  have hlog := outer_log hw.outer
  have hnfil := outer_nfil hw.outer
  have hpos : 0 < data.length := List.length_pos_of_ne_nil hdata
  -- The write has changed something, so that the file is dirty.
  have hdirty : (w'.fil f).isdirty = true := by
    cases hd : (w'.fil f).isdirty with
    | true => rfl
    | false =>
        obtain ⟨-, hmiss | hmiss, -⟩ := hw.quiet hd
        · exact absurd hmiss hdata
        · omega
  have hsize : (w'.fil f).inode.size = max (off + data.length) a.size := by
    rw [hw.size, hdirty, if_pos rfl, h.size f a ha]
  have hlen : f < m.files.length := (List.getElem?_eq_some_iff.1 ha).1
  have hcase : ∀ g b, (m.files.set f (a.write data off))[g]? = some b →
      (g = f ∧ b = a.write data off) ∨ (g ≠ f ∧ m.files[g]? = some b) := by
    intro g b hb
    by_cases hg : g = f
    · subst hg
      rw [List.getElem?_set_self hlen] at hb
      exact .inl ⟨rfl, (Option.some.inj hb).symm⟩
    · rw [List.getElem?_set_ne (Ne.symm hg)] at hb
      exact .inr ⟨hg, hb⟩
  refine ⟨⟨hw.inv, ?_, hw.cacheFil.noFil h.noFil, ?_, ?_, ?_, ?_, ?_⟩, by rw [hsize, Nat.max_comm]⟩
  · rw [outer_zobj hw.outer]
    exact h.zobj
  · rw [hnfil, h.nfil, List.length_set]
  · intro g hg hd
    by_cases hgf : g = f
    · subst hgf
      rw [hdirty] at hd
      simp at hd
    · rw [hnfil] at hg
      rw [hw.other g hgf] at hd
      refine (h.clean g hg hd).logLe ?_ (hw.other g hgf)
      rw [hlog]
      exact .refl _
  · intro g b hb
    rcases hcase g b hb with ⟨rfl, rfl⟩ | ⟨hgf, hb⟩
    · exact hsize
    · rw [hw.other g hgf]
      exact h.size g b hb
  · intro g b hb i
    rcases hcase g b hb with ⟨rfl, rfl⟩ | ⟨hgf, hb⟩
    · rcases Nat.lt_or_ge i maxSize with hi | hi
      · rw [hw.bytes i hi, h.bytes g a ha]
        rfl
      · have hout : ¬ (off ≤ i ∧ i < off + data.length) := by omega
        simp only [SparseFile.write, if_neg hout]
        rw [fileBytes_beyond _ _ hi, ← h.bytes g a ha, fileBytes_beyond _ _ hi]
    · rw [hw.otherBytes g hgf (h.lt hb)]
      exact h.bytes g b hb i
  · intro r b hb
    obtain ⟨x, hx⟩ := h.saved r b hb
    refine ⟨x, hx.logLe h.inv.disk ?_ hw.inv.disk.nilFree⟩
    rw [hlog]
    exact .refl _

/-- A key has been dropped from the clean cache. -/
theorem Refines.evicted (h : Refines E w m) (r : BlockRef) {Q : Unit → World → Prop}
    {F : Exn → World → Prop} (hQ : ∀ w', Refines E w' m → Q () w') : wp (cacheRemove r) Q F w := by
  have hblk : ∀ o, w.cache.nodemap r = some o → ∃ n, o = .blk n := by
    intro o ho
    cases o with
    | blk n => exact ⟨n, rfl⟩
    | fil f => exact absurd ho (h.noFil r f)
  refine wp_cacheRemove (h.inv.rep.placed hblk) ?_ ?_
  · intro _
    exact hQ w h
  · intro o ho
    obtain ⟨n, rfl⟩ := hblk o ho
    exact hQ _ (h.grew (h.inv.removed ho) (.setCache (h.inv.rep.sameFil_removed ho)))

/-- The result of an operation is one of the arrays, which the files then are. -/
def StepOk (E : Env) (m : Spec) (op : FileOp) (r : FileResult) (w' : World) : Prop :=
  ∃ m', m.Step op r m' ∧ Refines E w' m'

theorem FileOp.Allowed.file {f : ℕ} (hf : f < m.files.length) : ∃ a, m.files[f]? = some a :=
  ⟨m.files[f], List.getElem?_eq_getElem hf⟩

/-- Where no operation can raise an exception. -/
def NoExn (_ : Exn) (_ : World) : Prop := False

theorem Refines.create (h : Refines E w m) (mode : UInt32) (uname gname : Str) :
    wp (FileOp.run E (.create mode uname gname)) (StepOk E m (.create mode uname gname)) NoExn w := by
  have hnode : nodeBytes E w.log (.fresh mode uname gname (w.clock w.ticks)) = fun _ => 0 := by
    funext i
    rw [nodeBytes]
    split
    case isTrue hi => simp [FileNode.fresh, byteAt]
    case isFalse =>
      cases FSlot.at i with
      | none => rfl
      | some s => exact storeBytes_nil h.inv.disk.nilFree _ _
  -- The clock is read first.
  have htick : Refines E { w with ticks := w.ticks + 1 } m := by
    have hs : SameShape w { w with ticks := w.ticks + 1 } :=
      ⟨fun _ => rfl, fun _ => rfl, fun _ => rfl, fun _ => rfl, fun _ => rfl, fun _ => rfl, rfl, rfl, rfl,
        rfl, List.Sublist.refl _, rfl⟩
    have hbytes : ∀ f i, fileBytes E { w with ticks := w.ticks + 1 } f i = fileBytes E w f i :=
      fun f i => @fileBytes_of_fil E w { w with ticks := w.ticks + 1 } f rfl rfl rfl i
    refine ⟨h.inv.sameShape hs (fun _ => .inl rfl) (fun _ _ _ => rfl), h.zobj, h.noFil, h.nfil, ?_,
      h.size, ?_, ?_⟩
    · exact fun f hf hd => (h.clean f hf hd).logLe (.refl _) rfl
    · exact fun f a ha i => (hbytes f i).trans (h.bytes f a ha i)
    · intro r a ha
      obtain ⟨x, hx⟩ := h.saved r a ha
      exact ⟨x, hx.logLe h.inv.disk (.refl _) h.inv.disk.nilFree⟩
  have halloc := htick.allocFil (x := .fresh mode uname gname (w.clock w.ticks)) (a := .empty)
    (fun _ => rfl) (fun _ hr => absurd rfl hr) (fun hd => by simp [FileNode.fresh] at hd) rfl
    (fun i => congrFun hnode i)
  rw [wp]
  change StepOk E m _ (.node w.nfil) _
  refine ⟨_, ?_, halloc⟩
  rw [h.nfil]
  exact .create mode uname gname

theorem Refines.write (h : Refines E w m) {f : ℕ} {data : List UInt8} {off : ℕ}
    (hop : (FileOp.write f data off).Allowed m) :
    wp (FileOp.run E (.write f data off)) (StepOk E m (.write f data off)) NoExn w := by
  obtain ⟨hf, hdata, -, hend⟩ := hop
  obtain ⟨a, ha⟩ := FileOp.Allowed.file hf
  rw [FileOp.run]
  refine wp_seq (wp_fileWrite h.inv (h.lt ha) data off) ?_ ?_
  · rintro n w' ⟨hn, hw⟩
    obtain ⟨hr, hsize⟩ := h.written ha hdata hend hw
    have hn' : n = (data.length : ℤ) := by
      rw [hn, Nat.min_eq_left hend, Nat.add_sub_cancel_left]
    simp only [wp_bind, wp_get, wp_pure]
    rw [hn', hsize]
    exact ⟨_, .write data off ha, hr⟩
  · rintro e w' ⟨hlt, -⟩
    omega

theorem Refines.read (h : Refines E w m) {f : ℕ} {buf : ℕ → UInt8} {size off : ℕ}
    (hop : (FileOp.read f buf size off).Allowed m) :
    wp (FileOp.run E (.read f buf size off)) (StepOk E m (.read f buf size off)) NoExn w := by
  obtain ⟨hf, -, hend⟩ := hop
  obtain ⟨a, ha⟩ := FileOp.Allowed.file hf
  have hsize := h.size f a ha
  rw [FileOp.run]
  refine wp_seq (wp_fileRead h.inv (h.lt ha) buf size off) ?_ ?_
  · rintro ⟨n, buf'⟩ w' ⟨hinv, hg, hn, hbuf⟩
    have hcount : min (min (off + size) maxSize) a.size - off = min size (a.size - off) := by
      rw [Nat.min_eq_left hend]
      omega
    rw [hsize, hcount] at hn
    simp only [wp_pure]
    obtain rfl : n = _ := hn
    refine ⟨m, .read buf buf' size off ha ?_, h.grew hinv hg⟩
    intro j hj
    have hlt : off + j < min (min (off + size) maxSize) (w.fil f).inode.size := by
      rw [hsize, Nat.min_eq_left hend]
      omega
    have := hbuf j
    rw [if_pos hlt, h.bytes f a ha] at this
    exact this
  · rintro e w' ⟨-, -, ⟨-, l, hl, hz⟩ | ⟨-, hlt⟩⟩
    · exact h.zobj l hl hz
    · omega

theorem Refines.reload (h : Refines E w m) {r : BlockRef} (hop : (FileOp.reload r).Allowed m) :
    wp (FileOp.run E (.reload r)) (StepOk E m (.reload r)) NoExn w := by
  obtain ⟨a, ha⟩ := hop
  obtain ⟨x, hx⟩ := h.saved r a ha
  have hrefs := h.inv.disk.decodeFile_refs hx.stored hx.decoded
  -- The node has no handles and is clean.
  obtain ⟨i, hi⟩ : ∃ b i, x = FileNode.stored r b i := by
    have hd := hx.decoded
    simp only [decodeFile, Option.bind_eq_some_iff, Option.map_eq_some_iff] at hd
    obtain ⟨b, -, i, -, hi⟩ := hd
    exact ⟨b, i, hi.symm⟩
  obtain ⟨i, rfl⟩ := hi
  have halloc := h.allocFil (a := a) (fun _ => rfl) hrefs (fun _ => ⟨?_, ?_⟩) hx.size hx.bytes
  · rw [FileOp.run, wp_bind, wp, loadFileNode_run h.inv.disk hx.stored hx.decoded]
    refine ⟨_, ?_, halloc⟩
    rw [h.nfil]
    exact .reload ha
  · rw [allocFil_self]
    exact hx.stored
  · rw [allocFil_self]
    exact hx.decoded

/-- **Every operation keeps the refinement.** -/
theorem Refines.step (h : Refines E w m) {op : FileOp} (hop : op.Allowed m) :
    StepOk E m op (op.exec E w).1 (op.exec E w).2 := by
  -- An operation that cannot fail returns the result of the arrays.
  have total : wp (op.run E) (StepOk E m op) NoExn w → StepOk E m op (op.exec E w).1 (op.exec E w).2 := by
    intro hwp
    rw [FileOp.exec]
    cases hrun : op.run E w with
    | ok r w' => exact wp_ok hwp hrun
    | error e w' => exact (wp_error hwp hrun).elim
  cases op with
  | create mode uname gname => exact total (h.create mode uname gname)
  | write f data off => exact total (h.write hop)
  | read f buf size off => exact total (h.read hop)
  | evict r =>
      refine total ?_
      rw [FileOp.run, wp_bind]
      exact h.evicted r fun w' h' => ⟨m, .evict r, h'⟩
  | reload r => exact total (h.reload hop)
  | flush f =>
      obtain ⟨a, ha⟩ := FileOp.Allowed.file hop
      have hflush := wp_bnFlushFile h.inv (h.lt ha) (h.clean f (h.lt ha))
      rw [FileOp.exec, FileOp.run]
      cases hrun : bnFlushFile E f w with
      | ok r w' =>
          obtain ⟨hinv, hff, rfl, hco⟩ := wp_ok hflush hrun
          have h' := h.flushed hinv hff (fun _ => hco)
          simp only [bind_apply, hrun, pure_apply]
          refine ⟨_, .flush _ ha, { h' with saved := ?_ }⟩
          intro r b hb
          rcases List.mem_cons.1 hb with heq | hb
          · obtain ⟨rfl, rfl⟩ := Prod.mk.inj heq
            exact ⟨_, h'.saveFile ha hco⟩
          · exact h'.saved r b hb
      | error e w' =>
          obtain ⟨he, hinv, hff, hd⟩ := wp_error hflush hrun
          have h' := h.flushed hinv hff (fun hd' => by rw [hd] at hd'; simp at hd')
          simp only [bind_apply, hrun]
          rcases he with (rfl | rfl) | ⟨-, rfl⟩
          · exact ⟨m, .noSpace f _, h'⟩
          · exact ⟨m, .internal f _, h'⟩
          · exact ⟨m, .internal f _, h'⟩

/-- Every trace from a world that refines the arrays is one of the arrays. -/
theorem Refines.accepts (ops : List FileOp) : ∀ {w : World} {m : Spec}, Refines E w m →
    m.Accepts (trace E w ops) := by
  induction ops with
  | nil => exact fun _ => trivial
  | cons op ops ih =>
      intro w m h hop
      obtain ⟨m', hstep, h'⟩ := h.step hop
      exact ⟨m', hstep, ih h'⟩

end refines

/-! ### The context -/

/-- The four zero singletons of a new context. -/
def World.context (rand : List IV) (full : List Bool) (clock : ℕ → ℕ) : World :=
  (((World.boot rand full clock).zeroed 0).zeroed 1).zeroed 2 |>.zeroed 3

/-- A new context has no files. -/
theorem Refines.context {rand : List IV} (hnodup : rand.Nodup) (hne : ∀ iv ∈ rand, iv ≠ fun _ => 0)
    (full : List Bool) (clock : ℕ → ℕ) : Refines E (World.context rand full clock) .empty := by
  have hinv : BInv E ∅ (World.context rand full clock) := by
    refine BInv.zeroed (BInv.zeroed (BInv.zeroed (BInv.zeroed (BInv.boot hnodup hne full clock) ?_) ?_) ?_) ?_
    · rintro l ⟨⟩
    · rintro l ⟨⟩
      exact ⟨0, rfl⟩
    · rintro l ⟨⟩
      exact ⟨1, rfl⟩
    · rintro l ⟨⟩
      exact ⟨2, rfl⟩
  refine ⟨hinv, ?_, ?_, rfl, ?_, ?_, ?_, ?_⟩
  · intro l hl
    have : l = 0 ∨ l = 1 ∨ l = 2 ∨ l = 3 := by omega
    rcases this with rfl | rfl | rfl | rfl <;> simp [World.context, World.zeroed, World.boot]
  · intro r f hr
    simp [World.context, World.zeroed, World.alloc, World.setBlk, World.boot] at hr
  · intro f hf
    exact absurd hf (Nat.not_lt_zero f)
  · intro f a ha
    simp [Spec.empty] at ha
  · intro f a ha
    simp [Spec.empty] at ha
  · intro r a ha
    simp [Spec.empty] at ha

/-- **Files are sparse arrays of bytes**: in every run from a context with its zero singletons, each
write returns its length and sets the size to the larger of the old one and the end of the range, and
each read returns the bytes of the array that are in the range and below the size. -/
theorem trace_accepted (E : Env) {rand : List IV} (hnodup : rand.Nodup)
    (hne : ∀ iv ∈ rand, iv ≠ fun _ => 0) (full : List Bool) (clock : ℕ → ℕ) (ops : List FileOp) :
    Spec.empty.Accepts (trace E (World.context rand full clock) ops) :=
  (Refines.context hnodup hne full clock).accepts ops

/-- A write across the end of the inline data, and a flush. -/
def flushOps : List FileOp := [.create 0o644 [] [], .write 0 [7, 8] 4095, .flush 0]

/-- The state after that. -/
def flushedWorld : World :=
  flushOps.foldl (fun w op => (op.exec .sample w).2) (World.context Env.sampleRand [] id)

/-- The block of the file is dropped from the clean cache, and the file is made again from its reference. -/
def reloadOps : List FileOp :=
  flushOps ++ [.evict ((flushedWorld.fil 0).refs (.dir 0)), .reload (flushedWorld.fil 0).ref,
    .read 1 (fun _ => 9) 4 4094]

/-- The operations up to the last read are done, and the flush returns the reference. -/
def reloadResults : List (FileOp × FileResult) → Bool
  | [(_, .node 0), (_, .written 2 4097), (_, .ref r), (_, .done), (_, .node 1), _] =>
      decide (r = (flushedWorld.fil 0).ref)
  | _ => false

/-- A file is made again from the reference of a flush, and one of its blocks is not cached any longer. -/
theorem trace_accepted_sample :
    flushedWorld.cache.nodemap ((flushedWorld.fil 0).refs (.dir 0)) ≠ none ∧
      reloadResults (trace .sample (World.context Env.sampleRand [] id) reloadOps) = true ∧
      Spec.empty.Accepts (trace .sample (World.context Env.sampleRand [] id) reloadOps) :=
  ⟨by decide +kernel, by decide +kernel,
    trace_accepted .sample Env.sampleRand_nodup Env.sampleRand_ne [] id _⟩

end UTFS

end Utopfs
