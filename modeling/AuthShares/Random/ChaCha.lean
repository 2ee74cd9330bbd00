import AuthShares.Words

/-!
# The ChaCha block function

Sixteen 32-bit words hold four constants, the key, a 64-bit block counter and a
stream number, here always zero. A block is the state after an even number of
rounds, added word by word to the state before them.
-/

set_option autoImplicit false

namespace AuthShares.ChaCha

def rotations : Rotations := ⟨16, 12, 8, 7⟩

def doubleRounds : Nat → Block → Block
  | 0, s => s
  | n + 1, s => doubleRounds n (s.round rotations .zero)

def keyWord (key : Bytes32) (i : Nat) : UInt32 := bytesWord key.toArray (4 * i)

def start (key : Bytes32) (counter : UInt64) : Block :=
  #v[0x61707865, 0x3320646e, 0x79622d32, 0x6b206574,
    keyWord key 0, keyWord key 1, keyWord key 2, keyWord key 3,
    keyWord key 4, keyWord key 5, keyWord key 6, keyWord key 7,
    counter.toUInt32, (counter >>> 32).toUInt32, 0, 0]

/-- The keystream block with the given counter, after `2 * n` rounds. -/
def block (n : Nat) (key : Bytes32) (counter : UInt64) : Block :=
  let s := start key counter
  (doubleRounds n s).zipWith (· + ·) s

end AuthShares.ChaCha
