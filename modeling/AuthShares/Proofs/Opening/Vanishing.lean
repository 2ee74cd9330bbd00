import Mathlib.Algebra.BigOperators.Ring.Finset
import Mathlib.Algebra.GCDMonoid.Finset
import Mathlib.Data.ZMod.QuotientGroup
import Mathlib.GroupTheory.Index

/-!
# Combinations that vanish

Modulo a number with divisors a random combination of fixed differences can vanish although
none of them does. The combinations are the multiples of one divisor, which is common to the
modulus and all differences. So the coefficients with which a combination vanishes can be
counted.
-/

set_option autoImplicit false

namespace AuthShares

open scoped BigOperators

variable {q m : Nat}

def combination (d : Fin m → ZMod q) : (Fin m → ZMod q) →+ ZMod q where
  toFun chi := ∑ k, chi k * d k
  map_zero' := by simp
  map_add' chi chi' := by simp [add_mul, Finset.sum_add_distrib]

theorem combination_single (d : Fin m → ZMod q) (k : Fin m) :
    combination d (Pi.single k 1) = d k := by
  show ∑ j, (Pi.single k 1 : Fin m → ZMod q) j * d j = d k
  rw [Finset.sum_eq_single k (fun j _ hj => by simp [hj]) (fun hk => absurd (Finset.mem_univ k) hk)]
  simp

theorem gcd_cast_mem {H : AddSubgroup (ZMod q)} {a b : Nat} (ha : (a : ZMod q) ∈ H)
    (hb : (b : ZMod q) ∈ H) : ((Nat.gcd a b : Nat) : ZMod q) ∈ H := by
  have hbezout : ((Nat.gcd a b : Int) : ZMod q) =
      Nat.gcdA a b • (a : ZMod q) + Nat.gcdB a b • (b : ZMod q) := by
    rw [Nat.gcd_eq_gcd_ab]
    push_cast
    rw [zsmul_eq_mul, zsmul_eq_mul, mul_comm (a : ZMod q), mul_comm (b : ZMod q)]
  rw [Int.cast_natCast] at hbezout
  rw [hbezout]
  exact H.add_mem (H.zsmul_mem ha _) (H.zsmul_mem hb _)

theorem finset_gcd_cast_mem {H : AddSubgroup (ZMod q)} {d : Fin m → Nat} {s : Finset (Fin m)}
    (h : ∀ k ∈ s, (d k : ZMod q) ∈ H) : ((s.gcd d : Nat) : ZMod q) ∈ H := by
  induction s using Finset.induction with
  | empty => simp
  | insert k s _ ih =>
    rw [Finset.gcd_insert]
    exact gcd_cast_mem (h k (by simp)) (ih fun j hj => h j (by simp [hj]))

/-- The combinations of all coefficients are the multiples of the greatest common divisor. -/
theorem range_combination (d : Fin m → Nat) :
    (combination fun k => (d k : ZMod q)).range =
      AddSubgroup.zmultiples ((Finset.univ.gcd d : Nat) : ZMod q) := by
  refine le_antisymm ?_ ?_
  · rintro _ ⟨chi, rfl⟩
    show ∑ k, chi k * (d k : ZMod q) ∈ _
    refine sum_mem fun k _ => ?_
    obtain ⟨c, hc⟩ : Finset.univ.gcd d ∣ d k := Finset.gcd_dvd (Finset.mem_univ k)
    refine AddSubgroup.mem_zmultiples_iff.mpr ⟨((chi k * c : ZMod q).cast : Int), ?_⟩
    rw [hc, zsmul_eq_mul, ZMod.intCast_zmod_cast, Nat.cast_mul, mul_assoc,
      mul_comm (c : ZMod q)]
  · refine AddSubgroup.zmultiples_le_of_mem ?_
    exact finset_gcd_cast_mem fun k _ => ⟨Pi.single k 1, combination_single _ k⟩

theorem card_ker_combination (hq : q ≠ 0) (hm : 0 < m) (d : Fin m → Nat) :
    Nat.card (combination fun k => (d k : ZMod q)).ker =
      q ^ (m - 1) * q.gcd (Finset.univ.gcd d) := by
  have hdvd : q.gcd (Finset.univ.gcd d) ∣ q := Nat.gcd_dvd_left _ _
  have hindex : (combination fun k => (d k : ZMod q)).ker.index =
      q / q.gcd (Finset.univ.gcd d) := by
    rw [AddSubgroup.index_ker, range_combination, Nat.card_zmultiples, ZMod.addOrderOf_coe _ hq]
  have hpos : 0 < q / q.gcd (Finset.univ.gcd d) :=
    Nat.div_pos (Nat.le_of_dvd (Nat.pos_of_ne_zero hq) hdvd)
      (Nat.gcd_pos_of_pos_left _ (Nat.pos_of_ne_zero hq))
  have hall : Nat.card (Fin m → ZMod q) = q ^ (m - 1) * q := by
    rw [Nat.card_fun, Nat.card_zmod, Nat.card_fin, ← pow_succ, Nat.sub_add_cancel hm]
  have hcount := (combination fun k => (d k : ZMod q)).ker.card_mul_index
  rw [hindex, hall] at hcount
  refine Nat.eq_of_mul_eq_mul_right hpos ?_
  rw [hcount, Nat.mul_assoc, Nat.mul_div_cancel' hdvd]

/-- The common divisor of `2 ^ 64` and numbers is small unless all are multiples. -/
theorem gcd_le_iff {d : Fin m → Nat} {e : Nat} (he : e < 64) :
    (2 ^ 64).gcd (Finset.univ.gcd d) ≤ 2 ^ e ↔ ∃ k, ¬ 2 ^ (e + 1) ∣ d k := by
  obtain ⟨f, -, hf⟩ := (Nat.dvd_prime_pow Nat.prime_two).mp
    (Nat.gcd_dvd_left (2 ^ 64) (Finset.univ.gcd d))
  have hall : 2 ^ (e + 1) ∣ (2 ^ 64).gcd (Finset.univ.gcd d) ↔ ∀ k, 2 ^ (e + 1) ∣ d k := by
    rw [Nat.dvd_gcd_iff, Finset.dvd_gcd_iff]
    exact ⟨fun h k => h.2 k (Finset.mem_univ k), fun h => ⟨Nat.pow_dvd_pow 2 he, fun k _ => h k⟩⟩
  rw [← not_forall, ← hall, hf, Nat.pow_dvd_pow_iff_le_right (by decide),
    Nat.pow_le_pow_iff_right (by decide), not_le, Nat.lt_succ_iff]

end AuthShares
