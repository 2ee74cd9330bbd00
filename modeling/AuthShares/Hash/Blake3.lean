import AuthShares.Words

/-!
# BLAKE3

The input is cut into chunks of 1024 bytes and these into blocks of 64. Blocks of a
chunk are compressed one after another; chunks are joined by a binary tree whose left
side holds the largest power of two of chunks that leaves some for the right side.
Only the last compression of the whole tree carries the root flag.
-/

set_option autoImplicit false

namespace AuthShares.Blake3

abbrev Chain := Vector UInt32 8

def chunkStart : UInt32 := 1
def chunkEnd : UInt32 := 2
def parentFlag : UInt32 := 4
def rootFlag : UInt32 := 8

def initial : Chain :=
  #v[0x6a09e667, 0xbb67ae85, 0x3c6ef372, 0xa54ff53a,
    0x510e527f, 0x9b05688c, 0x1f83d9ab, 0x5be0cd19]

def rotations : Rotations := ⟨16, 20, 24, 25⟩

def permute (m : Block) : Block :=
  #v[wordAt m 2, wordAt m 6, wordAt m 3, wordAt m 10, wordAt m 7, wordAt m 0, wordAt m 4,
    wordAt m 13, wordAt m 1, wordAt m 11, wordAt m 12, wordAt m 5, wordAt m 9, wordAt m 14,
    wordAt m 15, wordAt m 8]

def rounds : Nat → Block → Block → Block
  | 0, s, _ => s
  | n + 1, s, m => rounds n (s.round rotations m) (permute m)

def compress (chain : Chain) (block : Block) (counter : UInt64) (length flags : UInt32) : Chain :=
  let s : Block := rounds 7
    #v[wordAt chain 0, wordAt chain 1, wordAt chain 2, wordAt chain 3,
      wordAt chain 4, wordAt chain 5, wordAt chain 6, wordAt chain 7,
      wordAt initial 0, wordAt initial 1, wordAt initial 2, wordAt initial 3,
      counter.toUInt32, (counter >>> 32).toUInt32, length, flags] block
  #v[wordAt s 0 ^^^ wordAt s 8, wordAt s 1 ^^^ wordAt s 9, wordAt s 2 ^^^ wordAt s 10, wordAt s 3 ^^^ wordAt s 11,
    wordAt s 4 ^^^ wordAt s 12, wordAt s 5 ^^^ wordAt s 13, wordAt s 6 ^^^ wordAt s 14, wordAt s 7 ^^^ wordAt s 15]

/-- A compression that still lacks the decision whether it is the last of all. -/
structure Node where
  chain : Chain
  block : Block
  counter : UInt64
  length : UInt32
  flags : UInt32

def Node.join (n : Node) : Chain := compress n.chain n.block n.counter n.length n.flags

def Node.root (n : Node) : Chain := compress n.chain n.block 0 n.length (n.flags ||| rootFlag)

def words (bs : Bytes) : Block :=
  let a := bs.toArray
  Vector.ofFn fun i : Fin 16 => bytesWord a (4 * i.val)

def chunk (counter : UInt64) (chain : Chain) (flag : UInt32) (bs : Bytes) : Node :=
  if bs.length ≤ 64 then
    ⟨chain, words bs, counter, UInt32.ofNat bs.length, flag ||| chunkEnd⟩
  else
    chunk counter (compress chain (words (bs.take 64)) counter 64 flag) 0 (bs.drop 64)
termination_by bs.length
decreasing_by simp only [List.length_drop]; omega

def leftSize (size : Nat) : Nat := 1 <<< (size - 1).log2

theorem leftSize_pos (size : Nat) : 0 < leftSize size := by
  rw [leftSize, Nat.one_shiftLeft]
  exact Nat.two_pow_pos _

theorem leftSize_lt {size : Nat} (h : 1024 < size) : leftSize size < size := by
  have := Nat.log2_self_le (show size - 1 ≠ 0 by omega)
  rw [leftSize, Nat.one_shiftLeft]
  omega

def tree (counter : Nat) (bs : Bytes) : Node :=
  if bs.length ≤ 1024 then
    chunk (UInt64.ofNat counter) initial chunkStart bs
  else
    let left := leftSize bs.length
    let l := (tree counter (bs.take left)).join
    let r := (tree (counter + left / 1024) (bs.drop left)).join
    ⟨initial, l ++ r, 0, 64, parentFlag⟩
termination_by bs.length
decreasing_by
  · have := leftSize_lt (show 1024 < bs.length by omega)
    simp only [List.length_take]
    omega
  · have := leftSize_pos bs.length
    simp only [List.length_drop]
    omega

def wordByte (w : UInt32) (i : Nat) : UInt8 := (w >>> UInt32.ofNat (8 * i)).toUInt8

def hash (bs : Bytes) : Bytes32 :=
  let chain := (tree 0 bs).root
  Vector.ofFn fun i : Fin 32 => wordByte (wordAt chain (i.val / 4)) (i.val % 4)

end AuthShares.Blake3
