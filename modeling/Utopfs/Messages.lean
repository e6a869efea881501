/-
**The messages of the file system, and an instance of the libraries.**

`INode.proto` and `Directory.proto` give the fields; the encoder writes them in the order of their
numbers.  With a cipher that adds the initvec to the block, and a digest that samples it, they are an
instance of the libraries the development is about.

Main definitions:

* `UTFS.inodeMessage`, `UTFS.readINode`, `UTFS.dirMessage`, `UTFS.readDir` — the messages;
* `UTFS.Env.sample` — the instance.

Main results:

* `UTFS.readINode_padded`, `UTFS.readDir_dirMessage` — the messages are parsed as they were, the
  inode also when zero bytes follow.
-/

import Utopfs.Node
import Utopfs.Wire

set_option relaxedAutoImplicit false
set_option autoImplicit false

namespace Utopfs

namespace UTFS

open Wire

/-! ### Inodes -/

/-- The `INode` message. -/
def inodeMessage (i : INode) : List UInt8 :=
  varintField 0x08 i.mode.toNat ++ (varintField 0x10 i.nlink.toNat ++ (bytesField 0x1a i.uname ++
    (bytesField 0x22 i.gname ++ (varintField 0x28 i.size ++ (varintField 0x30 i.atime ++
      (varintField 0x38 i.mtime ++ (varintField 0x40 i.ctime ++ varintField 0x48 i.blocks)))))))

/-- The parser of the `INode` message; it stops after the last field. -/
def readINode (l : List UInt8) : Option INode := do
  let (mode, l) ← readVarintField 0x08 l
  let (nlink, l) ← readVarintField 0x10 l
  let (uname, l) ← readBytesField 0x1a l
  let (gname, l) ← readBytesField 0x22 l
  let (size, l) ← readVarintField 0x28 l
  let (atime, l) ← readVarintField 0x30 l
  let (mtime, l) ← readVarintField 0x38 l
  let (ctime, l) ← readVarintField 0x40 l
  let (blocks, _) ← readVarintField 0x48 l
  return { mode := UInt32.ofNat mode, nlink := UInt32.ofNat nlink, uname, gname, size, atime, mtime,
           ctime, blocks }

/-- **An inode is parsed as it was, whatever follows.** -/
theorem readINode_inodeMessage (i : INode) (l : List UInt8) :
    readINode (inodeMessage i ++ l) = some i := by
  simp only [readINode, inodeMessage, List.append_assoc, readVarintField_varintField,
    readBytesField_bytesField, bind, Option.bind_some, UInt32.ofNat_toNat]
  rfl

theorem ofFn_padded {msg : List UInt8} (h : msg.length ≤ 3328) :
    List.ofFn (padded msg) = msg ++ List.replicate (3328 - msg.length) 0 := by
  refine List.ext_getElem ?_ ?_
  · rw [List.length_ofFn, List.length_append, List.length_replicate]
    omega
  · intro k h₁ h₂
    rw [List.getElem_ofFn, padded, List.getElem_append, List.getD_eq_getElem?_getD]
    split
    case isTrue hk => rw [List.getElem?_eq_getElem hk, Option.getD_some]
    case isFalse hk =>
      rw [List.getElem?_eq_none (Nat.not_lt.1 hk), Option.getD_none, List.getElem_replicate]

theorem readINode_padded (i : INode) (h : (inodeMessage i).length ≤ 3328) :
    readINode (List.ofFn (padded (inodeMessage i))) = some i := by
  rw [ofFn_padded h]
  exact readINode_inodeMessage i _

/-! ### Directories -/

/-- The `Entry` message. -/
def entryMessage (e : Str × BlockRef) : List UInt8 :=
  bytesField 0x0a e.1 ++ bytesField 0x12 (List.ofFn e.2)

/-- A reference from its bytes, of which there are 32. -/
def refOfBytes (b : List UInt8) : Option BlockRef :=
  if b.length = 32 then some fun i => b.getD i 0 else none

/-- The parser of the `Entry` message. -/
def readEntry (l : List UInt8) : Option (Str × BlockRef) := do
  let (name, l) ← readBytesField 0x0a l
  let (ref, _) ← readBytesField 0x12 l
  let r ← refOfBytes ref
  return (name, r)

/-- The `Directory` message. -/
def dirMessage (d : Directory) : List UInt8 := d.flatMap fun e => bytesField 0x0a (entryMessage e)

/-- At most `fuel` entries. -/
def readEntries : ℕ → List UInt8 → Option Directory
  | 0, l => if l = [] then some [] else none
  | fuel + 1, l =>
      if l = [] then some []
      else do
        let (b, l) ← readBytesField 0x0a l
        let e ← readEntry b
        let d ← readEntries fuel l
        return e :: d

/-- The parser of the `Directory` message. -/
def readDir (l : List UInt8) : Option Directory := readEntries l.length l

theorem refOfBytes_ofFn (r : BlockRef) : refOfBytes (List.ofFn r) = some r := by
  rw [refOfBytes, if_pos List.length_ofFn]
  congr 1
  funext i
  rw [List.getD_eq_getElem?_getD, List.getElem?_ofFn, dif_pos i.2, Option.getD_some]

theorem readEntry_entryMessage (e : Str × BlockRef) : readEntry (entryMessage e) = some e := by
  have h := readBytesField_bytesField 0x12 (List.ofFn e.2) []
  rw [List.append_nil] at h
  rw [readEntry, entryMessage, readBytesField_bytesField]
  simp only [bind, Option.bind_some, h, refOfBytes_ofFn]
  rfl

theorem readEntries_dirMessage : ∀ (fuel : ℕ) (d : Directory), d.length ≤ fuel →
    readEntries fuel (dirMessage d) = some d := by
  intro fuel
  induction fuel with
  | zero =>
      intro d hd
      obtain rfl : d = [] := List.length_eq_zero_iff.1 (by omega)
      rfl
  | succ fuel ih =>
      intro d hd
      cases d with
      | nil => rfl
      | cons e d =>
          have hne : ¬ bytesField 0x0a (entryMessage e) ++ dirMessage d = [] := by
            simp [bytesField]
          have hcons : dirMessage (e :: d) = bytesField 0x0a (entryMessage e) ++ dirMessage d := rfl
          rw [hcons, readEntries, if_neg hne]
          simp [readBytesField_bytesField, readEntry_entryMessage,
            ih d (by simpa using hd)]

theorem length_dirMessage (d : Directory) : d.length ≤ (dirMessage d).length := by
  induction d with
  | nil => exact Nat.le_refl _
  | cons e d ih =>
      have := length_bytesField_pos 0x0a (entryMessage e)
      simp only [dirMessage, List.flatMap_cons, List.length_append, List.length_cons] at ih ⊢
      omega

/-- **A directory is parsed as it was.** -/
theorem readDir_dirMessage (d : Directory) : readDir (dirMessage d) = some d :=
  readEntries_dirMessage _ d (length_dirMessage d)

/-! ### An instance of the libraries -/

/-- Adding the initvec to each 16 bytes of a block. -/
def xorBlock (iv : IV) (b : Block) : Block := fun k => b k ^^^ iv ⟨k % 16, Nat.mod_lt _ (by decide)⟩

theorem xorBlock_xorBlock (iv : IV) (b : Block) : xorBlock iv (xorBlock iv b) = b := by
  funext k
  rw [xorBlock, xorBlock, UInt8.xor_assoc, UInt8.xor_self, UInt8.xor_zero]

/-- **An instance of the libraries.** -/
def Env.sample : Env where
  encrypt := xorBlock
  decrypt := xorBlock
  decrypt_encrypt := xorBlock_xorBlock
  encryptRef r := fun i => r i ^^^ 0x55
  decryptRef r := fun i => r i ^^^ 0x55
  decryptRef_encryptRef r := by
    funext i
    rw [UInt8.xor_assoc, UInt8.xor_self, UInt8.xor_zero]
  digest b := fun i => b ⟨512 * i, by omega⟩
  serializeINode := inodeMessage
  parseINode area := readINode (List.ofFn area)
  parseINode_serializeINode := readINode_padded
  serializeDir := dirMessage
  parseDir := readDir
  parseDir_serializeDir := readDir_dirMessage

/-- Random bytes for its runs. -/
def Env.sampleRand : List IV :=
  [fun _ => 1, fun _ => 2, fun _ => 3, fun _ => 4, fun _ => 5, fun _ => 6]

theorem Env.sampleRand_nodup : Env.sampleRand.Nodup := List.Nodup.of_map (fun iv => iv 0) (by decide)

theorem Env.sampleRand_ne : ∀ iv ∈ Env.sampleRand, iv ≠ fun _ => 0 := by
  rintro iv hiv rfl
  have hfirst : ∀ b ∈ Env.sampleRand.map (fun iv => iv 0), b ≠ 0 := by simp [Env.sampleRand]
  exact hfirst 0 (List.mem_map_of_mem hiv) rfl

end UTFS

end Utopfs
