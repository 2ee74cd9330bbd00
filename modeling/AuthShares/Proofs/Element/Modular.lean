import AuthShares.Element.Basic
import Mathlib.Data.ZMod.Basic

/-!
# Elements as residues

Every element has a representation, a natural number; canonical elements have one below
the modulus. The operations take canonical elements to canonical ones and follow the
arithmetic of residues, so that a canonical element is determined by its residue.
-/

set_option autoImplicit false

namespace AuthShares

theorem Element.total_concat {T : Type} [Element T] (xs : List T) (x : T) :
    total (xs ++ [x]) = total xs + x := List.foldl_concat ..

class Modular (T : Type) [MacElement T] where
  modulus : Nat
  rep : T → Nat
  ofNat : Nat → T
  rep_lt (x : T) : Element.isCanonical x → rep x < modulus
  rep_inj (x y : T) : rep x = rep y → x = y
  ofNat_canonical (k : Nat) : Element.isCanonical (ofNat k)
  rep_ofNat (k : Nat) : rep (ofNat k) = k % modulus
  zero_eq : (0 : T) = ofNat 0
  add_eq (x y : T) : Element.isCanonical x → Element.isCanonical y →
    x + y = ofNat (rep x + rep y)
  sub_eq (x y : T) : Element.isCanonical x → Element.isCanonical y →
    x - y = ofNat (rep x + (modulus - rep y))
  neg_eq (x : T) : Element.isCanonical x → -x = ofNat (modulus - rep x)
  mul_eq (x y : T) : Element.isCanonical x → Element.isCanonical y →
    x * y = ofNat (rep x * rep y)
  isZero_iff (x : T) : MacElement.isZero x ↔ rep x = 0
  random_canonical (g : Generator) : Element.isCanonical ((MacElement.random (T := T)).run g).1
  length_toBytes (x : T) : (Element.toBytes x).length = Element.size T
  ofBytes_toBytes (x : T) : Element.isCanonical x → Element.ofBytes (Element.toBytes x) = x

namespace Modular

variable {T : Type} [MacElement T] [Modular T]

/-- The class of an element modulo `q`, meant for divisors of the modulus. -/
def residue (q : Nat) (x : T) : ZMod q := (rep x : ZMod q)

variable {q : Nat} {x y : T}

theorem residue_ofNat (hq : q ∣ modulus T) (k : Nat) : residue q (ofNat k : T) = k := by
  rw [residue, rep_ofNat, ZMod.natCast_eq_natCast_iff]
  exact (Nat.mod_modEq k (modulus T)).of_dvd hq

theorem modulus_cast (hq : q ∣ modulus T) : (modulus T : ZMod q) = 0 :=
  (ZMod.natCast_eq_zero_iff _ _).mpr hq

theorem zero_canonical : Element.isCanonical (0 : T) := zero_eq (T := T) ▸ ofNat_canonical 0

theorem add_canonical (hx : Element.isCanonical x) (hy : Element.isCanonical y) :
    Element.isCanonical (x + y) := add_eq x y hx hy ▸ ofNat_canonical _

theorem sub_canonical (hx : Element.isCanonical x) (hy : Element.isCanonical y) :
    Element.isCanonical (x - y) := sub_eq x y hx hy ▸ ofNat_canonical _

theorem neg_canonical (hx : Element.isCanonical x) : Element.isCanonical (-x) :=
  neg_eq x hx ▸ ofNat_canonical _

theorem mul_canonical (hx : Element.isCanonical x) (hy : Element.isCanonical y) :
    Element.isCanonical (x * y) := mul_eq x y hx hy ▸ ofNat_canonical _

theorem residue_zero (hq : q ∣ modulus T) : residue q (0 : T) = 0 := by
  rw [zero_eq, residue_ofNat hq, Nat.cast_zero]

theorem residue_add (hq : q ∣ modulus T) (hx : Element.isCanonical x)
    (hy : Element.isCanonical y) : residue q (x + y) = residue q x + residue q y := by
  rw [add_eq x y hx hy, residue_ofNat hq, Nat.cast_add]
  rfl

theorem residue_neg (hq : q ∣ modulus T) (hx : Element.isCanonical x) :
    residue q (-x) = -residue q x := by
  rw [neg_eq x hx, residue_ofNat hq, Nat.cast_sub (rep_lt x hx).le, modulus_cast hq, zero_sub]
  rfl

theorem residue_sub (hq : q ∣ modulus T) (hx : Element.isCanonical x)
    (hy : Element.isCanonical y) : residue q (x - y) = residue q x - residue q y := by
  rw [sub_eq x y hx hy, residue_ofNat hq, Nat.cast_add, Nat.cast_sub (rep_lt y hy).le,
    modulus_cast hq, zero_sub, ← sub_eq_add_neg]
  rfl

theorem residue_mul (hq : q ∣ modulus T) (hx : Element.isCanonical x)
    (hy : Element.isCanonical y) : residue q (x * y) = residue q x * residue q y := by
  rw [mul_eq x y hx hy, residue_ofNat hq, Nat.cast_mul]
  rfl

theorem eq_of_residue (hx : Element.isCanonical x) (hy : Element.isCanonical y)
    (h : residue (modulus T) x = residue (modulus T) y) : x = y := by
  have hmod := (ZMod.natCast_eq_natCast_iff _ _ _).mp h
  exact rep_inj _ _ (hmod.eq_of_lt_of_lt (rep_lt x hx) (rep_lt y hy))

theorem isZero_iff_residue (hx : Element.isCanonical x) :
    MacElement.isZero x ↔ residue (modulus T) x = 0 := by
  rw [isZero_iff, residue, ZMod.natCast_eq_zero_iff]
  exact ⟨fun h => h ▸ dvd_zero _, fun h => Nat.eq_zero_of_dvd_of_lt h (rep_lt x hx)⟩

theorem total_canonical (xs : List T) (h : ∀ x ∈ xs, Element.isCanonical x) :
    Element.isCanonical (Element.total xs) := by
  induction xs using List.reverseRecOn with
  | nil => exact zero_canonical
  | append_singleton xs x ih =>
    rw [Element.total_concat]
    exact add_canonical (ih fun y hy => h y (by simp [hy])) (h x (by simp))

theorem residue_total (hq : q ∣ modulus T) (xs : List T) (h : ∀ x ∈ xs, Element.isCanonical x) :
    residue q (Element.total xs) = (xs.map (residue q)).sum := by
  induction xs using List.reverseRecOn with
  | nil => exact residue_zero hq
  | append_singleton xs x ih =>
    have hxs : ∀ y ∈ xs, Element.isCanonical y := fun y hy => h y (by simp [hy])
    rw [Element.total_concat, residue_add hq (total_canonical xs hxs) (h x (by simp)), ih hxs]
    simp

end Modular

class ModularRing (T : Type) [RingElement T] extends Modular T where
  shown : Nat
  shown_dvd : shown ∣ modulus
  shift_eq (x : T) : RingElement.shift x = ofNat (shown * rep x)
  low_eq (x : T) : RingElement.low x = ofNat (rep x % shown)
  challenge_canonical (g : Generator) :
    Element.isCanonical ((RingElement.challenge (T := T)).run g).1

namespace ModularRing

open AuthShares.Modular

variable {T : Type} [RingElement T] [ModularRing T] {q : Nat}

theorem modulus_pos : 0 < modulus T :=
  Nat.lt_of_le_of_lt (Nat.zero_le _) (rep_lt (0 : T) zero_canonical)

theorem shown_pos : 0 < shown T := Nat.pos_of_dvd_of_pos shown_dvd modulus_pos

theorem shift_canonical (x : T) : Element.isCanonical (RingElement.shift x) :=
  shift_eq x ▸ ofNat_canonical _

theorem residue_shift (hq : q ∣ modulus T) (x : T) :
    residue q (RingElement.shift x) = shown T * residue q x := by
  rw [shift_eq, residue_ofNat hq, Nat.cast_mul]
  rfl

theorem residue_low (x : T) : residue (shown T) (RingElement.low x) = residue (shown T) x := by
  rw [low_eq, residue_ofNat shown_dvd, ZMod.natCast_mod]
  rfl

theorem low_eq_low_iff (x y : T) :
    RingElement.low x = RingElement.low y ↔ residue (shown T) x = residue (shown T) y := by
  have hle : shown T ≤ modulus T := Nat.le_of_dvd modulus_pos shown_dvd
  have hrep : ∀ z : T, rep (RingElement.low z) = rep z % shown T := fun z => by
    rw [low_eq, rep_ofNat, Nat.mod_eq_of_lt ((Nat.mod_lt _ shown_pos).trans_le hle)]
  rw [residue, residue, ZMod.natCast_eq_natCast_iff', ← hrep, ← hrep]
  exact ⟨fun h => h ▸ rfl, rep_inj _ _⟩

end ModularRing

end AuthShares
