import AuthShares.Bytes.LittleEndian

/-!
# Mixing sixteen words

Sixteen 32-bit words are mixed four at a time by additions, exclusive sums and
rotations. A round goes over the four columns of the square they form, then over its
four diagonals. Each step can add two words of a message; without one these are zero.
-/

set_option autoImplicit false

namespace AuthShares

abbrev Block := Vector UInt32 16

def wordAt {n : Nat} (v : Vector UInt32 n) (i : Nat) : UInt32 := v.toArray.getD i 0

def bytesWord (a : Array UInt8) (i : Nat) : UInt32 :=
  (a.getD i 0).toUInt32 ||| ((a.getD (i + 1) 0).toUInt32 <<< 8) |||
    ((a.getD (i + 2) 0).toUInt32 <<< 16) ||| ((a.getD (i + 3) 0).toUInt32 <<< 24)

structure Rotations where
  first : UInt32
  second : UInt32
  third : UInt32
  fourth : UInt32

def rotateLeft (x : UInt32) (bits : UInt32) : UInt32 :=
  (x <<< bits) ||| (x >>> (32 - bits))

namespace Block

def zero : Block := Vector.replicate 16 0

def mix (r : Rotations) (s : Block) (a b c d : Fin 16) (x y : UInt32) : Block :=
  let xa := s[a] + s[b] + x
  let xd := rotateLeft (s[d] ^^^ xa) r.first
  let xc := s[c] + xd
  let xb := rotateLeft (s[b] ^^^ xc) r.second
  let xa := xa + xb + y
  let xd := rotateLeft (xd ^^^ xa) r.third
  let xc := xc + xd
  let xb := rotateLeft (xb ^^^ xc) r.fourth
  (((s.set a xa).set b xb).set c xc).set d xd

def round (r : Rotations) (s m : Block) : Block :=
  let s := mix r s 0 4 8 12 (wordAt m 0) (wordAt m 1)
  let s := mix r s 1 5 9 13 (wordAt m 2) (wordAt m 3)
  let s := mix r s 2 6 10 14 (wordAt m 4) (wordAt m 5)
  let s := mix r s 3 7 11 15 (wordAt m 6) (wordAt m 7)
  let s := mix r s 0 5 10 15 (wordAt m 8) (wordAt m 9)
  let s := mix r s 1 6 11 12 (wordAt m 10) (wordAt m 11)
  let s := mix r s 2 7 8 13 (wordAt m 12) (wordAt m 13)
  mix r s 3 4 9 14 (wordAt m 14) (wordAt m 15)

end Block

end AuthShares
