import AuthShares.Proofs.Element.Mersenne61

/-!
# When field arithmetic stays in range

Field elements are computed with in words, and products in two words. With canonical elements no
number on the way is too large or below zero. A representation that is not canonical may be too
large for a sum, which is wrong then, though it looks like any other.
-/

set_option autoImplicit false

namespace AuthShares

namespace Mersenne61

open AuthShares.Modular (residue)

/-- No operation on `x` and `y` leaves its range: sums and folded words fit into a word, nothing is
subtracted from something smaller, and products fit into two words and their digits into one. -/
structure InRange (x y : Mersenne61) : Prop where
  sum : x.rep.toNat + y.rep.toNat < wordRange
  folded (w : UInt64) : (w &&& modulus).toNat + (w >>> 61).toNat < wordRange
  difference : y.rep.toNat - x.rep.toNat ≤ modulus.toNat
  product : x.rep.toNat * y.rep.toNat < wordRange * wordRange
  digits : x.rep.toNat * y.rep.toNat % digit + x.rep.toNat * y.rep.toNat / digit % digit +
    x.rep.toNat * y.rep.toNat / digit / digit < wordRange

structure Faithful (x y : Mersenne61) : Prop extends InRange x y where
  eq_iff : x = y ↔ residue modulus.toNat x = residue modulus.toNat y
  isZero_iff : MacElement.isZero x ↔ residue modulus.toNat x = 0

variable {x y : Mersenne61}

theorem inRange (hx : Element.isCanonical x) (hy : Element.isCanonical y) : InRange x y where
  sum := by
    have hx := (isCanonical_iff x).mp hx
    have hy := (isCanonical_iff y).mp hy
    rw [toNat_modulus] at hx hy
    unfold wordRange
    omega
  folded w := by
    have hw := w.toNat_lt
    rw [toNat_and_modulus, toNat_shift]
    unfold wordRange
    omega
  difference := by
    have hy := (isCanonical_iff y).mp hy
    omega
  product := Nat.mul_lt_mul'' x.rep.toNat_lt y.rep.toNat_lt
  digits := by
    have hproduct : x.rep.toNat * y.rep.toNat < 2 ^ 64 * 2 ^ 64 :=
      Nat.mul_lt_mul'' x.rep.toNat_lt y.rep.toNat_lt
    unfold digit wordRange
    omega

theorem faithful (hx : Element.isCanonical x) (hy : Element.isCanonical y) : Faithful x y where
  toInRange := inRange hx hy
  eq_iff := ⟨fun h => h ▸ rfl, Modular.eq_of_residue hx hy⟩
  isZero_iff := Modular.isZero_iff_residue hx

theorem toNat_add (x y : Mersenne61) :
    (x + y).rep.toNat = (x.rep.toNat + y.rep.toNat) % wordRange % modulus.toNat := by
  show (reduce (x.rep + y.rep)).toNat = _
  rw [toNat_reduce, UInt64.toNat_add]
  rfl

theorem isCanonical_add (x y : Mersenne61) : Element.isCanonical (x + y) := by
  rw [isCanonical_iff, toNat_add]
  exact Nat.mod_lt _ (by decide)

theorem residue_add_iff_mod (q : Nat) : residue q (x + y) = residue q x + residue q y ↔
    (x + y).rep.toNat % q = (x.rep.toNat + y.rep.toNat) % q := by
  rw [← ZMod.natCast_eq_natCast_iff', Nat.cast_add]
  rfl

/-- What is lost when a sum does not fit into a word is no multiple of the modulus. -/
theorem mod_wordRange_mod_iff {k : Nat} (hk : k < wordRange + wordRange) :
    k % wordRange % modulus.toNat = k % modulus.toNat ↔ k < wordRange := by
  refine ⟨fun h => ?_, fun h => by rw [Nat.mod_eq_of_lt h]⟩
  by_contra hlt
  obtain ⟨d, rfl⟩ := Nat.exists_eq_add_of_le (Nat.not_lt.mp hlt)
  rw [Nat.add_mod_left, Nat.mod_eq_of_lt (Nat.lt_of_add_lt_add_left hk)] at h
  -- with one remainder for `d` and `wordRange + d`, the modulus would divide `wordRange`
  have hsame : 0 + d ≡ wordRange + d [MOD modulus.toNat] := by rwa [Nat.zero_add]
  exact absurd (Nat.ModEq.add_right_cancel' d hsame) (by decide)

theorem residue_add_iff : residue modulus.toNat (x + y) =
    residue modulus.toNat x + residue modulus.toNat y ↔
      x.rep.toNat + y.rep.toNat < wordRange := by
  rw [residue_add_iff_mod, toNat_add, Nat.mod_mod]
  exact mod_wordRange_mod_iff (Nat.add_lt_add x.rep.toNat_lt y.rep.toNat_lt)

theorem isCanonical_total (xs : List Mersenne61) : Element.isCanonical (Element.total xs) := by
  induction xs using List.reverseRecOn with
  | nil => decide
  | append_singleton xs x _ =>
    rw [Element.total_concat]
    exact isCanonical_add _ _

/-- What can be said of adding up shares one by one. What has been added up is canonical whatever
the shares are, but a share is added rightly just if the sum fits into a word. With canonical shares
all goes well. -/
structure AddsUp (shares : List Mersenne61) : Prop where
  total_canonical (k : Nat) : Element.isCanonical (Element.total (shares.take k))
  residue_add_iff (k : Nat) (hk : k < shares.length) :
    residue modulus.toNat (Element.total (shares.take (k + 1))) =
        residue modulus.toNat (Element.total (shares.take k)) +
          residue modulus.toNat shares[k] ↔
      (Element.total (shares.take k)).rep.toNat + shares[k].rep.toNat < wordRange
  faithful (h : ∀ s ∈ shares, Element.isCanonical s) (k : Nat) (hk : k < shares.length) :
    Faithful (Element.total (shares.take k)) shares[k]
  isZero_iff (h : ∀ s ∈ shares, Element.isCanonical s) :
    MacElement.isZero (Element.total shares) ↔ (shares.map (residue modulus.toNat)).sum = 0

theorem addsUp (shares : List Mersenne61) : AddsUp shares where
  total_canonical k := isCanonical_total _
  residue_add_iff k hk := by
    rw [← List.take_concat_get' shares k hk, Element.total_concat]
    exact residue_add_iff
  faithful h k hk := Mersenne61.faithful (isCanonical_total _) (h _ (List.getElem_mem hk))
  isZero_iff h := by
    have hq : modulus.toNat ∣ Modular.modulus Mersenne61 := dvd_rfl
    rw [← Modular.residue_total hq shares h]
    exact Modular.isZero_iff_residue (Modular.total_canonical shares h)

end Mersenne61

end AuthShares
