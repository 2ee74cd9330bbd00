import AuthShares.Element.Mersenne61
import AuthShares.Proofs.Element.Modular

/-!
# Arithmetic of the field elements

Folding and subtracting the modulus at most once gives the remainder of a 64-bit word.
Sums, differences and products of canonical representations stay below the word size
until they are folded, and a number drawn below the modulus is below it.
-/

set_option autoImplicit false

namespace AuthShares

namespace Generator

theorem below_lt {bound : Nat} (hb : 0 < bound) (g : Generator) :
    ((below bound).run g).1 < bound := by
  rcases hx : word64.run g with ⟨x, g'⟩
  have hprod : x.toNat * bound + bound ≤ wordRange * bound := by
    rw [← Nat.succ_mul]
    exact Nat.mul_le_mul_right bound x.toNat_lt
  have hdiv := Nat.div_add_mod (x.toNat * bound) wordRange
  have hhigh : x.toNat * bound / wordRange < bound := by
    apply Nat.div_lt_of_lt_mul
    omega
  have hcarry : wordRange - bound < x.toNat * bound % wordRange →
      x.toNat * bound / wordRange + 1 < bound := by
    intro hlow
    by_contra hge
    have heq : x.toNat * bound / wordRange = bound - 1 := by omega
    rw [heq, Nat.mul_sub, Nat.mul_one] at hdiv
    have : wordRange ≤ wordRange * bound := Nat.le_mul_of_pos_right _ hb
    omega
  have hrun : (below bound).run g =
      (if wordRange - bound < x.toNat * bound % wordRange then do
        let y ← word64
        if wordRange ≤ x.toNat * bound % wordRange + y.toNat * bound / wordRange then
          return x.toNat * bound / wordRange + 1
        else
          return x.toNat * bound / wordRange
      else
        return x.toNat * bound / wordRange : StateM Generator Nat).run g' := by
    rw [below, StateT.run_bind, hx]
    rfl
  rw [hrun]
  split
  · rename_i hlow
    rcases hy : word64.run g' with ⟨y, g''⟩
    rw [StateT.run_bind, hy]
    show (StateT.run (if wordRange ≤ x.toNat * bound % wordRange + y.toNat * bound / wordRange then
      (pure (x.toNat * bound / wordRange + 1) : StateM Generator Nat)
      else pure (x.toNat * bound / wordRange)) g'').1 < bound
    split
    · exact hcarry hlow
    · exact hhigh
  · exact hhigh

end Generator

namespace Mersenne61

theorem toNat_modulus : modulus.toNat = 2305843009213693951 := rfl

theorem toNat_and_modulus (x : UInt64) : (x &&& modulus).toNat = x.toNat % 2 ^ 61 := by
  rw [UInt64.toNat_and, toNat_modulus]
  exact Nat.and_two_pow_sub_one_eq_mod x.toNat 61

theorem toNat_shift (x : UInt64) : (x >>> 61).toNat = x.toNat / 2 ^ 61 := by
  rw [UInt64.toNat_shiftRight]
  exact Nat.shiftRight_eq_div_pow x.toNat 61

theorem toNat_reduce (x : UInt64) : (reduce x).toNat = x.toNat % modulus.toNat := by
  have hx := x.toNat_lt
  have hf : ((x &&& modulus) + (x >>> 61)).toNat = x.toNat % 2 ^ 61 + x.toNat / 2 ^ 61 := by
    rw [UInt64.toNat_add, toNat_and_modulus, toNat_shift]
    omega
  simp only [reduce]
  split
  · rename_i h
    rw [UInt64.toNat_sub_of_le _ _ h, hf, toNat_modulus]
    rw [UInt64.le_iff_toNat_le, hf, toNat_modulus] at h
    omega
  · rename_i h
    rw [UInt64.le_iff_toNat_le, hf, toNat_modulus] at h
    rw [hf, toNat_modulus]
    omega

theorem toNat_reduceWide {x : Nat} (hx : x < 2 ^ 128) :
    (reduceWide x).toNat = x % modulus.toNat := by
  have hsplit : x = x % digit + digit * (x / digit % digit + digit * (x / digit / digit)) := by
    rw [Nat.mod_add_div, Nat.mod_add_div]
  have htop : x / digit / digit < 64 := by
    rw [Nat.div_div_eq_div_mul]
    exact Nat.div_lt_of_lt_mul hx
  have hlow : x % digit < digit := Nat.mod_lt _ (by decide)
  have hmid : x / digit % digit < digit := Nat.mod_lt _ (by decide)
  rw [reduceWide, toNat_reduce, UInt64.toNat_ofNat']
  generalize x % digit = a at hsplit hlow ⊢
  generalize x / digit % digit = b at hsplit hmid ⊢
  generalize x / digit / digit = c at hsplit htop ⊢
  have hfold : x = (a + b + c) + modulus.toNat * (b + (digit + 1) * c) := by
    rw [hsplit, toNat_modulus, digit]
    omega
  rw [digit] at hlow hmid
  rw [hfold, Nat.mod_eq_of_lt (by omega : a + b + c < 2 ^ 64), Nat.add_mul_mod_self_left]

theorem canonical_iff (x : Mersenne61) : x.Canonical ↔ x.rep.toNat < modulus.toNat := by
  rw [Canonical, UInt64.lt_iff_toNat_lt]

theorem isCanonical_iff (x : Mersenne61) :
    Element.isCanonical x ↔ x.rep.toNat < modulus.toNat := by
  rw [← canonical_iff]
  exact decide_eq_true_iff

def ofNat (k : Nat) : Mersenne61 := ⟨UInt64.ofNat (k % modulus.toNat)⟩

theorem toNat_ofNat (k : Nat) : (ofNat k).rep.toNat = k % modulus.toNat := by
  rw [ofNat, UInt64.toNat_ofNat', toNat_modulus]
  omega

theorem eq_of_toNat {x y : Mersenne61} (h : x.rep.toNat = y.rep.toNat) : x = y := by
  cases x
  cases y
  exact congrArg _ (UInt64.toNat_inj.mp h)

variable {x y : Mersenne61}

theorem add_eq_ofNat (hx : x.rep.toNat < modulus.toNat) (hy : y.rep.toNat < modulus.toNat) :
    x + y = ofNat (x.rep.toNat + y.rep.toNat) := by
  apply eq_of_toNat
  rw [toNat_ofNat]
  show (reduce (x.rep + y.rep)).toNat = _
  rw [toNat_reduce, UInt64.toNat_add]
  rw [toNat_modulus] at hx hy
  rw [Nat.mod_eq_of_lt (a := x.rep.toNat + y.rep.toNat) (by omega)]

theorem sub_eq_ofNat (hx : x.rep.toNat < modulus.toNat) (hy : y.rep.toNat < modulus.toNat) :
    x - y = ofNat (x.rep.toNat + (modulus.toNat - y.rep.toNat)) := by
  apply eq_of_toNat
  rw [toNat_ofNat]
  show (sub x y).rep.toNat = _
  rw [sub]
  rw [toNat_modulus] at hx hy
  split
  · rename_i h
    rw [UInt64.toNat_sub_of_le _ _ h, toNat_modulus]
    rw [UInt64.le_iff_toNat_le] at h
    omega
  · rename_i h
    rw [UInt64.not_le, UInt64.lt_iff_toNat_lt] at h
    have hle : x.rep ≤ y.rep := UInt64.le_iff_toNat_le.mpr h.le
    have hd : (y.rep - x.rep).toNat = y.rep.toNat - x.rep.toNat := UInt64.toNat_sub_of_le _ _ hle
    have hm : y.rep - x.rep ≤ modulus := by
      rw [UInt64.le_iff_toNat_le, hd, toNat_modulus]
      omega
    rw [UInt64.toNat_sub_of_le _ _ hm, hd, toNat_modulus]
    omega

theorem neg_eq_ofNat (hx : x.rep.toNat < modulus.toNat) :
    -x = ofNat (modulus.toNat - x.rep.toNat) := by
  have h := sub_eq_ofNat (x := 0) (y := x) (by decide) hx
  rw [show (0 : Mersenne61).rep.toNat = 0 from rfl, Nat.zero_add] at h
  exact h

theorem mul_eq_ofNat (x y : Mersenne61) : x * y = ofNat (x.rep.toNat * y.rep.toNat) := by
  apply eq_of_toNat
  rw [toNat_ofNat]
  refine toNat_reduceWide ?_
  calc x.rep.toNat * y.rep.toNat < 2 ^ 64 * 2 ^ 64 := Nat.mul_lt_mul'' x.rep.toNat_lt y.rep.toNat_lt
    _ = 2 ^ 128 := rfl

theorem isZero_iff_toNat (x : Mersenne61) : MacElement.isZero x ↔ x.rep.toNat = 0 := by
  show (x == 0) = true ↔ _
  rw [beq_iff_eq]
  exact ⟨fun h => h ▸ rfl, fun h => eq_of_toNat h⟩

theorem ofBytes_toBytes (x : Mersenne61) : Element.ofBytes (Element.toBytes x) = x := by
  show (⟨UInt64.ofNat (ofLittleEndian (toLittleEndian 8 x.rep.toNat))⟩ : Mersenne61) = x
  have hx : x.rep.toNat < wordRange := x.rep.toNat_lt
  rw [ofLittleEndian_toLittleEndian, byteRange_word, Nat.mod_eq_of_lt hx, UInt64.ofNat_toNat]

theorem random_canonical (g : Generator) :
    Element.isCanonical ((MacElement.random (T := Mersenne61)).run g).1 := by
  have hpos : 0 < modulus.toNat := by
    rw [toNat_modulus]
    omega
  have hlt := Generator.below_lt hpos g
  rcases hk : (Generator.below modulus.toNat).run g with ⟨k, g'⟩
  rw [hk] at hlt
  have hrun : (MacElement.random (T := Mersenne61)).run g = (⟨UInt64.ofNat k⟩, g') := by
    show StateT.run (Generator.below modulus.toNat >>= fun k =>
      (pure ⟨UInt64.ofNat k⟩ : StateM Generator Mersenne61)) g = _
    rw [StateT.run_bind, hk]
    rfl
  rw [hrun, isCanonical_iff, UInt64.toNat_ofNat']
  rw [toNat_modulus] at hlt ⊢
  omega

instance : Modular Mersenne61 where
  modulus := modulus.toNat
  rep x := x.rep.toNat
  ofNat := ofNat
  rep_lt x hx := (isCanonical_iff x).mp hx
  rep_inj _ _ := eq_of_toNat
  ofNat_canonical k := by
    rw [isCanonical_iff, toNat_ofNat]
    exact Nat.mod_lt _ (by decide)
  rep_ofNat := toNat_ofNat
  zero_eq := rfl
  add_eq x y hx hy := add_eq_ofNat ((isCanonical_iff x).mp hx) ((isCanonical_iff y).mp hy)
  sub_eq x y hx hy := sub_eq_ofNat ((isCanonical_iff x).mp hx) ((isCanonical_iff y).mp hy)
  neg_eq x hx := neg_eq_ofNat ((isCanonical_iff x).mp hx)
  mul_eq x y _ _ := mul_eq_ofNat x y
  isZero_iff := isZero_iff_toNat
  random_canonical := random_canonical
  length_toBytes _ := length_toLittleEndian ..
  ofBytes_toBytes x _ := ofBytes_toBytes x

end Mersenne61

end AuthShares
