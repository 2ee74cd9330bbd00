import AuthShares.Opening.Ring
import AuthShares.Proofs.Element.Modular
import Mathlib.Algebra.BigOperators.Fin
import Mathlib.Algebra.BigOperators.Ring.Finset

/-!
# Authenticated sharings and their combinations

The value shares of a sharing sum to the secret, and the shares of its authentication to
the secret times the key. Both sums survive a linear combination with coefficients that
all players draw alike, whatever they are.
-/

set_option autoImplicit false

namespace AuthShares

open scoped BigOperators

variable {n m : Nat} {T : Type} [MacElement T]

/-- What all players hold of one secret, under the shares `key` of the key. -/
structure Sharing (T : Type) [MacElement T] {n : Nat} (key : Fin n → T) where
  secret : T
  share : Fin n → Share T
  value_canonical (i : Fin n) : Element.isCanonical (share i).value
  mac_canonical (i : Fin n) : Element.isCanonical (share i).mac
  total_value : Element.total (List.ofFn fun i => (share i).value) = secret
  total_mac : Element.total (List.ofFn fun i => (share i).mac) =
    Element.total (List.ofFn key) * secret

def sevenKey : Fin 2 → Mersenne61 := fun i => ⟨if i = 0 then 2 else 3⟩

def Sharing.seven : Sharing Mersenne61 sevenKey where
  secret := ⟨7⟩
  share i := ⟨⟨if i = 0 then 3 else 4⟩, ⟨if i = 0 then 9 else 26⟩⟩
  value_canonical := by decide
  mac_canonical := by decide
  total_value := by decide
  total_mac := by decide

def stream (draw : StateM Generator T) : Nat → Generator → T
  | 0, g => (draw.run g).1
  | k + 1, g => stream draw k (draw.run g).2

omit [MacElement T] in
/-- A source whose answers depend on how much was taken before them gives them in a row. -/
theorem stream_of_taken {draw : StateM Generator T} {f : Nat → T}
    (h : ∀ g, draw.run g = (f g.taken, { g with taken := g.taken + 1 })) (k : Nat)
    (g : Generator) : stream draw k g = f (g.taken + k) := by
  induction k generalizing g with
  | zero => exact congrArg Prod.fst (h g)
  | succ k ih =>
    have hnext := ih (draw.run g).2
    rw [h] at hnext
    rw [stream, h, hnext]
    exact congrArg f (Nat.add_right_comm _ _ _)

def weighted (draw : StateM Generator T) (acc : T) : List T → Generator → T
  | [], _ => acc
  | x :: xs, g => weighted draw (acc + (draw.run g).1 * x) xs (draw.run g).2

theorem Opener.combine_run (value mac : T) (pairs : List (T × T)) (g : Generator) :
    ((combine value mac pairs).run g).1 =
      (weighted MacElement.random value (pairs.map (·.1)) g,
        weighted MacElement.random mac (pairs.map (·.2)) g) := by
  induction pairs generalizing value mac g with
  | nil => rfl
  | cons pair pairs ih => exact ih _ _ _

theorem RingOpener.combine_run {T : Type} [RingElement T] (value share mac : T)
    (triples : List (T × T × T)) (g : Generator) :
    ((combine value share mac triples).run g).1 =
      (weighted RingElement.challenge value (triples.map (·.1)) g,
        weighted RingElement.challenge share (triples.map (·.2.1)) g,
        weighted RingElement.challenge mac (triples.map (·.2.2)) g) := by
  induction triples generalizing value share mac g with
  | nil => rfl
  | cons triple triples ih => exact ih _ _ _ _

variable [Modular T] {key : Fin n → T} {q : Nat}

namespace Modular

theorem residue_total_ofFn (hq : q ∣ modulus T) {f : Fin n → T}
    (hf : ∀ i, Element.isCanonical (f i)) :
    residue q (Element.total (List.ofFn f)) = ∑ i, residue q (f i) := by
  rw [residue_total hq _ ?_, List.map_ofFn, List.sum_ofFn]
  · rfl
  · intro x hx
    obtain ⟨i, rfl⟩ := List.mem_ofFn.mp hx
    exact hf i

theorem total_ofFn_canonical {f : Fin n → T} (hf : ∀ i, Element.isCanonical (f i)) :
    Element.isCanonical (Element.total (List.ofFn f)) := by
  refine total_canonical _ fun x hx => ?_
  obtain ⟨i, rfl⟩ := List.mem_ofFn.mp hx
  exact hf i

theorem total_ofFn_eq {f : Fin n → T} {x : T} (hf : ∀ i, Element.isCanonical (f i))
    (hx : Element.isCanonical x)
    (h : ∑ i, residue (modulus T) (f i) = residue (modulus T) x) :
    Element.total (List.ofFn f) = x := by
  apply eq_of_residue (total_ofFn_canonical hf) hx
  rw [residue_total_ofFn dvd_rfl hf, h]

theorem total_ofFn_eq_mul (hkey : ∀ i, Element.isCanonical (key i)) {f : Fin n → T} {x : T}
    (hf : ∀ i, Element.isCanonical (f i)) (hx : Element.isCanonical x)
    (h : ∑ i, residue (modulus T) (f i) =
      (∑ i, residue (modulus T) (key i)) * residue (modulus T) x) :
    Element.total (List.ofFn f) = Element.total (List.ofFn key) * x := by
  have hall := total_ofFn_canonical hkey
  apply total_ofFn_eq hf (mul_canonical hall hx)
  rw [h, residue_mul dvd_rfl hall hx, residue_total_ofFn dvd_rfl hkey]

variable {draw : StateM Generator T}

theorem weighted_canonical (hdraw : ∀ g, Element.isCanonical (draw.run g).1) {acc : T}
    {xs : List T} (hacc : Element.isCanonical acc) (hxs : ∀ x ∈ xs, Element.isCanonical x)
    (g : Generator) : Element.isCanonical (weighted draw acc xs g) := by
  induction xs generalizing acc g with
  | nil => exact hacc
  | cons x xs ih =>
    refine ih (add_canonical hacc (mul_canonical (hdraw g) (hxs x (by simp)))) (fun y hy => ?_) _
    exact hxs y (by simp [hy])

theorem weighted_ofFn_canonical (hdraw : ∀ g, Element.isCanonical (draw.run g).1)
    {f : Fin m → T} (hf : ∀ k, Element.isCanonical (f k)) (g : Generator) :
    Element.isCanonical (weighted draw 0 (List.ofFn f) g) := by
  refine weighted_canonical hdraw zero_canonical (fun x hx => ?_) g
  obtain ⟨k, rfl⟩ := List.mem_ofFn.mp hx
  exact hf k

theorem residue_weighted (hq : q ∣ modulus T) (hdraw : ∀ g, Element.isCanonical (draw.run g).1)
    {acc : T} {f : Fin m → T} (hacc : Element.isCanonical acc)
    (hf : ∀ k, Element.isCanonical (f k)) (g : Generator) :
    residue q (weighted draw acc (List.ofFn f) g) =
      residue q acc + ∑ k : Fin m, residue q (stream draw k g) * residue q (f k) := by
  induction m generalizing acc g with
  | zero => simp [weighted]
  | succ m ih =>
    have hterm := mul_canonical (hdraw g) (hf 0)
    rw [List.ofFn_succ, weighted, ih (add_canonical hacc hterm) (fun k => hf k.succ),
      residue_add hq hacc hterm, residue_mul hq (hdraw g) (hf 0), Fin.sum_univ_succ, add_assoc]
    rfl

/-- Combinations of what sums to multiples of some elements sum to a multiple of their
combination. -/
theorem sum_weighted (hq : q ∣ modulus T) (hdraw : ∀ g, Element.isCanonical (draw.run g).1)
    {x : Fin n → Fin m → T} {y : Fin m → T} (hx : ∀ i k, Element.isCanonical (x i k))
    (hy : ∀ k, Element.isCanonical (y k)) {c : ZMod q}
    (h : ∀ k, ∑ i, residue q (x i k) = c * residue q (y k)) (g : Generator) :
    ∑ i, residue q (weighted draw 0 (List.ofFn (x i)) g) =
      c * residue q (weighted draw 0 (List.ofFn y) g) := by
  have hterm : ∀ k : Fin m, c * (residue q (stream draw k g) * residue q (y k)) =
      ∑ i, residue q (stream draw k g) * residue q (x i k) := fun k => by
    rw [← Finset.mul_sum, h, mul_left_comm]
  rw [residue_weighted hq hdraw zero_canonical hy, residue_zero hq, zero_add, Finset.mul_sum,
    Finset.sum_congr rfl fun k _ => hterm k, Finset.sum_comm]
  refine Finset.sum_congr rfl fun i _ => ?_
  rw [residue_weighted hq hdraw zero_canonical (hx i), residue_zero hq, zero_add]

end Modular

namespace Sharing

open AuthShares.Modular

theorem secret_canonical (s : Sharing T key) : Element.isCanonical s.secret :=
  s.total_value ▸ total_ofFn_canonical s.value_canonical

theorem sum_value (s : Sharing T key) (hq : q ∣ modulus T) :
    ∑ i, residue q (s.share i).value = residue q s.secret := by
  rw [← residue_total_ofFn hq s.value_canonical, s.total_value]

theorem sum_mac (s : Sharing T key) (hkey : ∀ i, Element.isCanonical (key i))
    (hq : q ∣ modulus T) :
    ∑ i, residue q (s.share i).mac = (∑ i, residue q (key i)) * residue q s.secret := by
  rw [← residue_total_ofFn hq s.mac_canonical, s.total_mac,
    residue_mul hq (total_ofFn_canonical hkey) s.secret_canonical, residue_total_ofFn hq hkey]

def error (s : Sharing T key) (i : Fin n) : T := (s.share i).mac - key i * s.secret

theorem error_canonical (hkey : ∀ i, Element.isCanonical (key i)) (s : Sharing T key)
    (i : Fin n) : Element.isCanonical (s.error i) :=
  sub_canonical (s.mac_canonical i) (mul_canonical (hkey i) s.secret_canonical)

theorem sum_error (hkey : ∀ i, Element.isCanonical (key i)) (hq : q ∣ modulus T)
    (s : Sharing T key) : ∑ i, residue q (s.error i) = 0 := by
  have hterm : ∀ i, residue q (s.error i) =
      residue q (s.share i).mac - residue q (key i) * residue q s.secret := fun i => by
    rw [error, residue_sub hq (s.mac_canonical i) (mul_canonical (hkey i) s.secret_canonical),
      residue_mul hq (hkey i) s.secret_canonical]
  rw [Finset.sum_congr rfl fun i _ => hterm i, Finset.sum_sub_distrib, s.sum_mac hkey hq,
    Finset.sum_mul, sub_self]

theorem isZero_error (hkey : ∀ i, Element.isCanonical (key i)) (s : Sharing T key) :
    MacElement.isZero (Element.total (List.ofFn s.error)) := by
  rw [isZero_iff_residue (total_ofFn_canonical (s.error_canonical hkey)),
    residue_total_ofFn dvd_rfl (s.error_canonical hkey), s.sum_error hkey dvd_rfl]

section

variable {draw : StateM Generator T}

theorem sum_weighted_value (hdraw : ∀ g, Element.isCanonical (draw.run g).1)
    (hq : q ∣ modulus T) (s : Fin m → Sharing T key) (g : Generator) :
    ∑ i, residue q (weighted draw 0 (List.ofFn fun k => ((s k).share i).value) g) =
      residue q (weighted draw 0 (List.ofFn fun k => (s k).secret) g) := by
  have hsum : ∀ k, ∑ i, residue q ((s k).share i).value = 1 * residue q (s k).secret := fun k => by
    rw [(s k).sum_value hq, one_mul]
  rw [sum_weighted hq hdraw (fun i k => (s k).value_canonical i) (fun k => (s k).secret_canonical)
    hsum, one_mul]

theorem sum_weighted_mac (hkey : ∀ i, Element.isCanonical (key i))
    (hdraw : ∀ g, Element.isCanonical (draw.run g).1) (hq : q ∣ modulus T)
    (s : Fin m → Sharing T key) (g : Generator) :
    ∑ i, residue q (weighted draw 0 (List.ofFn fun k => ((s k).share i).mac) g) =
      (∑ i, residue q (key i)) *
        residue q (weighted draw 0 (List.ofFn fun k => (s k).secret) g) :=
  sum_weighted hq hdraw (fun i k => (s k).mac_canonical i) (fun k => (s k).secret_canonical)
    (fun k => (s k).sum_mac hkey hq) g

def combined (hkey : ∀ i, Element.isCanonical (key i))
    (hdraw : ∀ g, Element.isCanonical (draw.run g).1) (s : Fin m → Sharing T key)
    (g : Generator) : Sharing T key where
  secret := weighted draw 0 (List.ofFn fun k => (s k).secret) g
  share i := ⟨weighted draw 0 (List.ofFn fun k => ((s k).share i).value) g,
    weighted draw 0 (List.ofFn fun k => ((s k).share i).mac) g⟩
  value_canonical i := weighted_ofFn_canonical hdraw (fun k => (s k).value_canonical i) g
  mac_canonical i := weighted_ofFn_canonical hdraw (fun k => (s k).mac_canonical i) g
  total_value :=
    total_ofFn_eq (fun i => weighted_ofFn_canonical hdraw (fun k => (s k).value_canonical i) g)
      (weighted_ofFn_canonical hdraw (fun k => (s k).secret_canonical) g)
      (sum_weighted_value hdraw dvd_rfl s g)
  total_mac :=
    total_ofFn_eq_mul hkey
      (fun i => weighted_ofFn_canonical hdraw (fun k => (s k).mac_canonical i) g)
      (weighted_ofFn_canonical hdraw (fun k => (s k).secret_canonical) g)
      (sum_weighted_mac hkey hdraw dvd_rfl s g)

end

end Sharing

end AuthShares
