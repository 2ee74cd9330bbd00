import AuthShares.Random.ChaCha

/-!
# Random words

A generator is a ChaCha keystream together with the number of words taken from it.
Wider words take the low half first. A number below a bound is the high half of a
product, with one more draw deciding the carry when the low half is close to it.
-/

set_option autoImplicit false

namespace AuthShares

structure Generator where
  doubleRounds : Nat
  key : Bytes32
  taken : Nat
  deriving DecidableEq

namespace Generator

def ofKey (key : Bytes32) : Generator := ⟨10, key, 0⟩

/-- Eight little-endian words from a congruential sequence with permuted output. -/
def expandSeed : Nat → UInt64 → Bytes
  | 0, _ => []
  | n + 1, state =>
    let state := state * 6364136223846793005 + 11634580027462260723
    let mixed := (((state >>> 18) ^^^ state) >>> 27).toUInt32
    let bits := (state >>> 59).toUInt32
    let word := (mixed >>> bits) ||| (mixed <<< ((32 - bits) % 32))
    toLittleEndian 4 word.toNat ++ expandSeed n state

theorem length_expandSeed (n : Nat) (state : UInt64) : (expandSeed n state).length = 4 * n := by
  induction n generalizing state with
  | zero => rfl
  | succ n ih => simp [expandSeed, ih]; omega

def ofSeed (seed : UInt64) : Generator :=
  ofKey ⟨(expandSeed 8 seed).toArray, by simp [length_expandSeed]⟩

def word : StateM Generator UInt32 := fun g =>
  let block := ChaCha.block g.doubleRounds g.key (UInt64.ofNat (g.taken / 16))
  (wordAt block (g.taken % 16), { g with taken := g.taken + 1 })

def word64 : StateM Generator UInt64 := do
  let low ← word
  let high ← word
  return low.toUInt64 ||| (high.toUInt64 <<< 32)

def word128 : StateM Generator (BitVec 128) := do
  let low ← word64
  let high ← word64
  return high.toBitVec ++ low.toBitVec

def below (bound : Nat) : StateM Generator Nat := do
  let x ← word64
  let wide := x.toNat * bound
  let high := wide / wordRange
  let low := wide % wordRange
  if wordRange - bound < low then
    let y ← word64
    if wordRange ≤ low + y.toNat * bound / wordRange then return high + 1 else return high
  else
    return high

def lowBytes : Nat → StateM Generator Bytes
  | 0 => return []
  | n + 1 => do
    let w ← word
    let rest ← lowBytes n
    return w.toUInt8 :: rest

theorem length_lowBytes (n : Nat) (g : Generator) : (lowBytes n g).1.length = n := by
  induction n generalizing g with
  | zero => rfl
  | succ n ih => exact congrArg (· + 1) (ih _)

def bytes32 : StateM Generator Bytes32 := fun g =>
  (⟨(lowBytes 32 g).1.toArray, by simp [length_lowBytes]⟩, (lowBytes 32 g).2)

/-- How many words a party takes before its generator starts anew. -/
def period : Nat := 16384

def renew (g : Generator) : Generator := { g with taken := g.taken % period }

def entropy32 : StateM Generator Bytes32 := fun g =>
  ((bytes32 g).1, (bytes32 g).2.renew)

end Generator

end AuthShares
