import AuthShares.Element.Basic

/-!
# The field modulo the prime 2^61 - 1

An element is a 64-bit representation. The operations fold the bits above the
sixty-first onto the lower ones and subtract the modulus at most once, which gives
canonical results for canonical arguments. Representations that arrive from outside
need not be canonical; packing, equality and the test for zero look at them as they are.
-/

set_option autoImplicit false

namespace AuthShares

structure Mersenne61 where
  rep : UInt64
  deriving DecidableEq, Repr

namespace Mersenne61

def modulus : UInt64 := 2305843009213693951

def Canonical (x : Mersenne61) : Prop := x.rep < modulus

instance (x : Mersenne61) : Decidable x.Canonical := inferInstanceAs (Decidable (_ < _))

def reduce (x : UInt64) : UInt64 :=
  let folded := (x &&& modulus) + (x >>> 61)
  if modulus ≤ folded then folded - modulus else folded

/-- One more than the modulus: the range of a digit of sixty-one bits. -/
def digit : Nat := 2305843009213693952

def reduceWide (x : Nat) : UInt64 :=
  reduce (UInt64.ofNat (x % digit + x / digit % digit + x / digit / digit))

def ofUInt64 (x : UInt64) : Mersenne61 := ⟨reduce x⟩

def add (x y : Mersenne61) : Mersenne61 := ⟨reduce (x.rep + y.rep)⟩

def sub (x y : Mersenne61) : Mersenne61 :=
  if y.rep ≤ x.rep then ⟨x.rep - y.rep⟩ else ⟨modulus - (y.rep - x.rep)⟩

def mul (x y : Mersenne61) : Mersenne61 := ⟨reduceWide (x.rep.toNat * y.rep.toNat)⟩

instance : Zero Mersenne61 := ⟨⟨0⟩⟩
instance : One Mersenne61 := ⟨⟨1⟩⟩
instance : Add Mersenne61 := ⟨add⟩
instance : Sub Mersenne61 := ⟨sub⟩
instance : Neg Mersenne61 := ⟨fun x => 0 - x⟩
instance : Mul Mersenne61 := ⟨mul⟩

instance : Element Mersenne61 where
  size := 8
  toBytes x := toLittleEndian 8 x.rep.toNat
  ofBytes bs := ⟨UInt64.ofNat (ofLittleEndian bs)⟩
  isCanonical x := decide x.Canonical

instance : MacElement Mersenne61 where
  isZero x := x == 0
  random := do return ⟨UInt64.ofNat (← Generator.below modulus.toNat)⟩

end Mersenne61

end AuthShares
