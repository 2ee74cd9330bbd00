import AuthShares.Element.Ring128
import AuthShares.Proofs.Element.Modular

/-!
# Arithmetic of the ring elements

Every element of the ring is canonical, and its operations are those of 128-bit words.
-/

set_option autoImplicit false

namespace AuthShares.Ring128

theorem toNat_ofNat (k : Nat) : (ofNat k).bits.toNat = k % 2 ^ 128 := BitVec.toNat_ofNat k 128

theorem eq_of_toNat {x y : Ring128} (h : x.bits.toNat = y.bits.toNat) : x = y := by
  cases x
  cases y
  exact congrArg _ (BitVec.eq_of_toNat_eq h)

variable (x y : Ring128)

theorem add_eq_ofNat : x + y = ofNat (x.bits.toNat + y.bits.toNat) := by
  apply eq_of_toNat
  rw [toNat_ofNat]
  exact BitVec.toNat_add x.bits y.bits

theorem sub_eq_ofNat : x - y = ofNat (x.bits.toNat + (2 ^ 128 - y.bits.toNat)) := by
  apply eq_of_toNat
  rw [toNat_ofNat, Nat.add_comm]
  exact BitVec.toNat_sub x.bits y.bits

theorem neg_eq_ofNat : -x = ofNat (2 ^ 128 - x.bits.toNat) := by
  apply eq_of_toNat
  rw [toNat_ofNat]
  exact BitVec.toNat_neg x.bits

theorem mul_eq_ofNat : x * y = ofNat (x.bits.toNat * y.bits.toNat) := by
  apply eq_of_toNat
  rw [toNat_ofNat]
  exact BitVec.toNat_mul x.bits y.bits

theorem shift_eq_ofNat : RingElement.shift x = ofNat (2 ^ 64 * x.bits.toNat) := by
  apply eq_of_toNat
  rw [toNat_ofNat]
  show (x.bits <<< 64).toNat = _
  rw [BitVec.toNat_shiftLeft, Nat.shiftLeft_eq, Nat.mul_comm]

theorem low_eq_ofNat : RingElement.low x = ofNat (x.bits.toNat % 2 ^ 64) := by
  apply eq_of_toNat
  rw [toNat_ofNat]
  show ((x.bits.truncate 64).setWidth 128).toNat = _
  rw [BitVec.toNat_setWidth, BitVec.truncate_eq_setWidth, BitVec.toNat_setWidth]

theorem isZero_iff_toNat : MacElement.isZero x ↔ x.bits.toNat = 0 := by
  show (x == 0) = true ↔ _
  rw [beq_iff_eq]
  exact ⟨fun h => h ▸ rfl, fun h => eq_of_toNat h⟩

theorem ofBytes_toBytes : Element.ofBytes (Element.toBytes x) = x := by
  apply eq_of_toNat
  show (ofNat (ofLittleEndian (toLittleEndian 16 x.bits.toNat))).bits.toNat = _
  have hx : x.bits.toNat < byteRange 16 := x.bits.isLt
  rw [ofLittleEndian_toLittleEndian, Nat.mod_eq_of_lt hx, toNat_ofNat, Nat.mod_eq_of_lt x.bits.isLt]

instance : Modular Ring128 where
  modulus := 2 ^ 128
  rep x := x.bits.toNat
  ofNat := ofNat
  rep_lt x _ := x.bits.isLt
  rep_inj _ _ := eq_of_toNat
  ofNat_canonical _ := rfl
  rep_ofNat := toNat_ofNat
  zero_eq := rfl
  add_eq x y _ _ := add_eq_ofNat x y
  sub_eq x y _ _ := sub_eq_ofNat x y
  neg_eq x _ := neg_eq_ofNat x
  mul_eq x y _ _ := mul_eq_ofNat x y
  isZero_iff := isZero_iff_toNat
  random_canonical _ := rfl
  length_toBytes _ := length_toLittleEndian ..
  ofBytes_toBytes x _ := ofBytes_toBytes x

instance : ModularRing Ring128 where
  shown := 2 ^ 64
  shown_dvd := ⟨2 ^ 64, rfl⟩
  shift_eq := shift_eq_ofNat
  low_eq := low_eq_ofNat
  challenge_canonical _ := rfl

end AuthShares.Ring128
