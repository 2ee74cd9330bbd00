import AuthShares.Element.Basic

/-!
# The ring modulo 2^128

A secret lives in the low sixty-four bits; the sixty-four above them protect its
authentication. Every string of sixteen bytes is an element.
-/

set_option autoImplicit false

namespace AuthShares

structure Ring128 where
  bits : BitVec 128
  deriving DecidableEq, Repr

namespace Ring128

def visibleBits : Nat := 64

def securityBits : Nat := 64

def ofNat (n : Nat) : Ring128 := ⟨BitVec.ofNat 128 n⟩

instance : Zero Ring128 := ⟨⟨0⟩⟩
instance : One Ring128 := ⟨⟨1⟩⟩
instance : Add Ring128 := ⟨fun x y => ⟨x.bits + y.bits⟩⟩
instance : Sub Ring128 := ⟨fun x y => ⟨x.bits - y.bits⟩⟩
instance : Neg Ring128 := ⟨fun x => ⟨-x.bits⟩⟩
instance : Mul Ring128 := ⟨fun x y => ⟨x.bits * y.bits⟩⟩

instance : Element Ring128 where
  size := 16
  toBytes x := toLittleEndian 16 x.bits.toNat
  ofBytes bs := ofNat (ofLittleEndian bs)
  isCanonical _ := true

instance : MacElement Ring128 where
  isZero x := x == 0
  random := do return ⟨← Generator.word128⟩

instance : RingElement Ring128 where
  visibleBytes := visibleBits / 8
  shift x := ⟨x.bits <<< visibleBits⟩
  low x := ⟨(x.bits.truncate visibleBits).setWidth 128⟩
  challenge := do return ofNat (← Generator.word64).toNat

end Ring128

end AuthShares
