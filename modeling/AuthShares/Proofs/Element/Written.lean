import AuthShares.Proofs.Element.Mersenne61
import AuthShares.Proofs.Element.Ring128

/-!
# Elements as little-endian numbers

An element is written as its representation, and bytes that are not too many stand for the
element with the number they spell. Both kinds of elements are written so.
-/

set_option autoImplicit false

namespace AuthShares

theorem byteRange_eq_pow (width : Nat) : byteRange width = 256 ^ width := by
  induction width with
  | zero => rfl
  | succ width ih => rw [byteRange, ih, Nat.pow_succ']

theorem byteRange_pos (width : Nat) : 0 < byteRange width := by
  rw [byteRange_eq_pow]
  exact Nat.pow_pos (by decide)

theorem take_toLittleEndian {k width : Nat} (hk : k ≤ width) (x : Nat) :
    (toLittleEndian width x).take k = toLittleEndian k x := by
  induction k generalizing width x with
  | zero => simp [toLittleEndian]
  | succ k ih =>
    obtain ⟨width, rfl⟩ : ∃ w, width = w + 1 := ⟨width - 1, by omega⟩
    rw [toLittleEndian, toLittleEndian, List.take_succ_cons, ih (by omega)]

class Written (T : Type) [MacElement T] extends Modular T where
  toBytes_eq (x : T) : Element.toBytes x = toLittleEndian (Element.size T) (rep x)
  rep_ofBytes (bs : Bytes) : bs.length ≤ Element.size T →
    rep (Element.ofBytes bs) = ofLittleEndian bs
  isCanonical_iff (x : T) : Element.isCanonical x ↔ rep x < modulus
  byteRange_le {width : Nat} : width < Element.size T → byteRange width ≤ modulus

instance : Written Mersenne61 where
  toBytes_eq _ := rfl
  rep_ofBytes bs h := by
    have hlt : ofLittleEndian bs < wordRange := by
      refine (ofLittleEndian_lt bs).trans_le ?_
      rw [← byteRange_word, byteRange_eq_pow, byteRange_eq_pow]
      exact Nat.pow_le_pow_right (by decide) h
    show (UInt64.ofNat (ofLittleEndian bs)).toNat = _
    rw [UInt64.toNat_ofNat']
    exact Nat.mod_eq_of_lt hlt
  isCanonical_iff := Mersenne61.isCanonical_iff
  byteRange_le {width} h := by
    have hlt : width < 8 := h
    calc byteRange width ≤ 256 ^ 7 := by
          rw [byteRange_eq_pow]
          exact Nat.pow_le_pow_right (by decide) (by omega)
      _ ≤ Mersenne61.modulus.toNat := by decide

instance : Written Ring128 where
  toBytes_eq _ := rfl
  rep_ofBytes bs h := by
    have hlt : ofLittleEndian bs < 2 ^ 128 := by
      refine (ofLittleEndian_lt bs).trans_le ?_
      rw [byteRange_eq_pow]
      exact Nat.pow_le_pow_right (by decide) h
    show (Ring128.ofNat (ofLittleEndian bs)).bits.toNat = _
    rw [Ring128.toNat_ofNat, Nat.mod_eq_of_lt hlt]
  isCanonical_iff x := ⟨fun _ => x.bits.isLt, fun _ => rfl⟩
  byteRange_le {width} h := by
    have hlt : width < 16 := h
    show byteRange width ≤ 256 ^ 16
    rw [byteRange_eq_pow]
    exact Nat.pow_le_pow_right (by decide) hlt.le

end AuthShares
