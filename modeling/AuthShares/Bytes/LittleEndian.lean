/-!
# Little-endian bytes

A natural number becomes exactly `width` bytes, least significant first; higher
digits are dropped. Reading the bytes back gives the number modulo `byteRange width`,
so the encoding is exact below that bound.
-/

set_option autoImplicit false

namespace AuthShares

abbrev Bytes := List UInt8

abbrev Bytes32 := Vector UInt8 32

def byteRange : Nat → Nat
  | 0 => 1
  | width + 1 => 256 * byteRange width

def wordRange : Nat := 18446744073709551616

def toLittleEndian : Nat → Nat → Bytes
  | 0, _ => []
  | width + 1, n => UInt8.ofNat n :: toLittleEndian width (n / 256)

def ofLittleEndian : Bytes → Nat
  | [] => 0
  | b :: bs => b.toNat + 256 * ofLittleEndian bs

theorem byteRange_word : byteRange 8 = wordRange := rfl

@[simp] theorem length_toLittleEndian (width n : Nat) : (toLittleEndian width n).length = width := by
  induction width generalizing n with
  | zero => rfl
  | succ width ih => simp [toLittleEndian, ih]

theorem ofLittleEndian_lt (bs : Bytes) : ofLittleEndian bs < byteRange bs.length := by
  induction bs with
  | nil => decide
  | cons b bs ih =>
    have hb : b.toNat < 256 := b.toNat_lt
    rw [ofLittleEndian, List.length_cons, byteRange]
    omega

theorem ofLittleEndian_toLittleEndian (width n : Nat) :
    ofLittleEndian (toLittleEndian width n) = n % byteRange width := by
  induction width generalizing n with
  | zero => simp [toLittleEndian, ofLittleEndian, byteRange, Nat.mod_one]
  | succ width ih =>
    rw [toLittleEndian, ofLittleEndian, ih, byteRange, Nat.mod_mul]
    simp

theorem toLittleEndian_ofLittleEndian (bs : Bytes) :
    toLittleEndian bs.length (ofLittleEndian bs) = bs := by
  induction bs with
  | nil => rfl
  | cons b bs ih =>
    have hb : b.toNat < 256 := b.toNat_lt
    rw [List.length_cons, toLittleEndian, ofLittleEndian]
    congr 1
    · apply UInt8.toNat_inj.mp
      simp
    · rw [show (b.toNat + 256 * ofLittleEndian bs) / 256 = ofLittleEndian bs by omega, ih]

end AuthShares
