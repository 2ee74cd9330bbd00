import AuthShares.Proofs.Element.Ranges

/-!
# Field arithmetic with every step checked

The operations on field elements are carried out step by step, on numbers, and stop at the first
that does not fit into its word or would fall below zero. With canonical elements they never stop,
nor do products of any representations. So folding and subtracting once is exact: what comes out is
canonical, and it has the residue of the sum, the difference or the product.
-/

set_option autoImplicit false

namespace AuthShares.Mersenne61

open AuthShares.Modular (residue)

namespace Checked

def fit (bits k : Nat) : Option Nat := if k < 2 ^ bits then some k else none

def minus (a b : Nat) : Option Nat := if b ≤ a then some (a - b) else none

def reduce (x : Nat) : Option Nat := do
  let folded ← fit 64 ((x &&& modulus.toNat) + (x >>> 61))
  if modulus.toNat ≤ folded then minus folded modulus.toNat else return folded

def reduceWide (x : Nat) : Option Nat := do
  let low := x % 2 ^ 64 &&& modulus.toNat
  let middle := (x >>> 61) % 2 ^ 64 &&& modulus.toNat
  let high := (x >>> 122) % 2 ^ 64
  reduce (← fit 64 ((← fit 64 (low + middle)) + high))

def add (x y : Nat) : Option Nat := do reduce (← fit 64 (x + y))

def sub (x y : Nat) : Option Nat := do
  if y ≤ x then minus x y else minus modulus.toNat (← minus y x)

def mul (x y : Nat) : Option Nat := do reduceWide (← fit 128 (x * y))

theorem fit_of_lt {bits k : Nat} (h : k < 2 ^ bits) : fit bits k = some k := if_pos h

theorem minus_of_le {a b : Nat} (h : b ≤ a) : minus a b = some (a - b) := if_pos h

theorem and_modulus (x : Nat) : x &&& modulus.toNat = x % 2 ^ 61 :=
  Nat.and_two_pow_sub_one_eq_mod x 61

theorem reduce_word {x : Nat} (hx : x < 2 ^ 64) : reduce x = some (x % modulus.toNat) := by
  have hfold : x % 2 ^ 61 + x / 2 ^ 61 < 2 ^ 64 := by omega
  rw [reduce, and_modulus, Nat.shiftRight_eq_div_pow, fit_of_lt hfold, Option.bind_eq_bind,
    Option.bind_some, toNat_modulus]
  split
  · rename_i h
    rw [minus_of_le h]
    exact congrArg some (by omega)
  · exact congrArg some (by omega)

theorem reduceWide_words {x : Nat} (hx : x < 2 ^ 128) :
    reduceWide x = some (x % modulus.toNat) := by
  have hlow : x % 2 ^ 64 &&& modulus.toNat = x % digit := by
    rw [and_modulus]
    exact Nat.mod_mod_of_dvd x (by decide)
  have hmiddle : (x >>> 61) % 2 ^ 64 &&& modulus.toNat = x / digit % digit := by
    rw [and_modulus, Nat.shiftRight_eq_div_pow]
    exact Nat.mod_mod_of_dvd (x / digit) (by decide)
  have hhigh : (x >>> 122) % 2 ^ 64 = x / digit / digit := by
    rw [Nat.shiftRight_eq_div_pow, Nat.div_div_eq_div_mul]
    exact Nat.mod_eq_of_lt (by omega)
  have htop : x / digit / digit < 64 := by
    rw [Nat.div_div_eq_div_mul]
    exact Nat.div_lt_of_lt_mul hx
  have hdigits : x % digit < digit ∧ x / digit % digit < digit :=
    ⟨Nat.mod_lt _ (by decide), Nat.mod_lt _ (by decide)⟩
  have hwide := toNat_reduceWide hx
  rw [reduceWide, hlow, hmiddle, hhigh]
  rw [Mersenne61.reduceWide, toNat_reduce, UInt64.toNat_ofNat'] at hwide
  generalize x % digit = a at hdigits hwide ⊢
  generalize x / digit % digit = b at hdigits hwide ⊢
  generalize x / digit / digit = c at htop hwide ⊢
  rw [digit] at hdigits
  have hsum : a + b + c < 2 ^ 64 := by omega
  rw [Nat.mod_eq_of_lt hsum] at hwide
  simp only [fit_of_lt (by omega : a + b < 2 ^ 64), fit_of_lt hsum, Option.bind_eq_bind,
    Option.bind_some]
  rw [reduce_word hsum, hwide]

end Checked

/-- An operation that is carried out step by step comes to `z`, and `z` is canonical and stands for
the residue `r`. -/
structure Exact (steps : Option Nat) (z : Mersenne61) (r : ZMod modulus.toNat) : Prop where
  inRange : steps = some z.rep.toNat
  canonical : Element.isCanonical z
  residue_eq : residue modulus.toNat z = r

variable {x y : Mersenne61}

theorem exact_ofUInt64 (w : UInt64) : Exact (Checked.reduce w.toNat) (ofUInt64 w) w.toNat where
  inRange := (Checked.reduce_word w.toNat_lt).trans (congrArg some (toNat_reduce w).symm)
  canonical := (isCanonical_iff _).mpr ((toNat_reduce w).trans_lt (Nat.mod_lt _ (by decide)))
  residue_eq := by
    show ((reduce w).toNat : ZMod modulus.toNat) = _
    rw [toNat_reduce, ZMod.natCast_mod]

theorem exact_add (hx : Element.isCanonical x) (hy : Element.isCanonical y) :
    Exact (Checked.add x.rep.toNat y.rep.toNat) (x + y)
      (residue modulus.toNat x + residue modulus.toNat y) where
  inRange := by
    have hsum : x.rep.toNat + y.rep.toNat < wordRange := (inRange hx hy).sum
    rw [Checked.add, Checked.fit_of_lt hsum, Option.bind_eq_bind, Option.bind_some,
      Checked.reduce_word hsum, toNat_add, Nat.mod_eq_of_lt hsum]
  canonical := Modular.add_canonical hx hy
  residue_eq := Modular.residue_add dvd_rfl hx hy

theorem exact_sub (hx : Element.isCanonical x) (hy : Element.isCanonical y) :
    Exact (Checked.sub x.rep.toNat y.rep.toNat) (x - y)
      (residue modulus.toNat x - residue modulus.toNat y) where
  inRange := by
    have hdiff := (inRange hx hy).difference
    show _ = some (sub x y).rep.toNat
    rw [Checked.sub, sub]
    by_cases h : y.rep ≤ x.rep
    · have hle := UInt64.le_iff_toNat_le.mp h
      rw [if_pos hle, if_pos h, Checked.minus_of_le hle, UInt64.toNat_sub_of_le _ _ h]
    · have hnot := mt UInt64.le_iff_toNat_le.mpr h
      have hle : x.rep.toNat ≤ y.rep.toNat := (Nat.not_le.mp hnot).le
      have hrep : (y.rep - x.rep).toNat = y.rep.toNat - x.rep.toNat :=
        UInt64.toNat_sub_of_le _ _ (UInt64.le_iff_toNat_le.mpr hle)
      have hmod : y.rep - x.rep ≤ modulus := by
        rw [UInt64.le_iff_toNat_le, hrep]
        exact hdiff
      rw [if_neg hnot, if_neg h, Checked.minus_of_le hle, Option.bind_eq_bind, Option.bind_some,
        Checked.minus_of_le hdiff, UInt64.toNat_sub_of_le _ _ hmod, hrep]
  canonical := Modular.sub_canonical hx hy
  residue_eq := Modular.residue_sub dvd_rfl hx hy

theorem exact_neg (hx : Element.isCanonical x) :
    Exact (Checked.sub 0 x.rep.toNat) (-x) (-residue modulus.toNat x) where
  inRange := (exact_sub (x := 0) (by decide) hx).inRange
  canonical := Modular.neg_canonical hx
  residue_eq := Modular.residue_neg dvd_rfl hx

/-- Products are exact for all representations, canonical or not. -/
theorem exact_mul (x y : Mersenne61) :
    Exact (Checked.mul x.rep.toNat y.rep.toNat) (x * y)
      (residue modulus.toNat x * residue modulus.toNat y) where
  inRange := by
    have hproduct : x.rep.toNat * y.rep.toNat < 2 ^ 64 * 2 ^ 64 :=
      Nat.mul_lt_mul'' x.rep.toNat_lt y.rep.toNat_lt
    rw [← pow_add] at hproduct
    rw [Checked.mul, Checked.fit_of_lt hproduct, Option.bind_eq_bind, Option.bind_some,
      Checked.reduceWide_words hproduct, mul_eq_ofNat, toNat_ofNat]
  canonical := mul_eq_ofNat x y ▸ Modular.ofNat_canonical (T := Mersenne61) _
  residue_eq := by
    rw [mul_eq_ofNat]
    exact (Modular.residue_ofNat (T := Mersenne61) dvd_rfl _).trans (Nat.cast_mul _ _)

theorem Exact.fold {f : Mersenne61 → Mersenne61 → Mersenne61} {checked : Nat → Nat → Option Nat}
    {g : ZMod modulus.toNat → ZMod modulus.toNat → ZMod modulus.toNat}
    (hstep : ∀ x y, Element.isCanonical x → Element.isCanonical y →
      Exact (checked x.rep.toNat y.rep.toNat) (f x y)
        (g (residue modulus.toNat x) (residue modulus.toNat y)))
    (hx : Element.isCanonical x) {xs : List Mersenne61} (hxs : ∀ z ∈ xs, Element.isCanonical z) :
    Exact ((xs.map (·.rep.toNat)).foldlM checked x.rep.toNat) (xs.foldl f x)
      ((xs.map (residue modulus.toNat)).foldl g (residue modulus.toNat x)) := by
  induction xs generalizing x with
  | nil => exact ⟨rfl, hx, rfl⟩
  | cons z xs ih =>
    obtain ⟨hz, hrest⟩ := List.forall_mem_cons.mp hxs
    have hfirst := hstep x z hx hz
    have htail := ih hfirst.canonical hrest
    rw [List.map_cons, List.foldlM_cons, hfirst.inRange, List.foldl_cons, List.map_cons,
      List.foldl_cons, ← hfirst.residue_eq]
    exact htail

structure FieldOperations (x y : Mersenne61) (xs : List Mersenne61) : Prop where
  add : Exact (Checked.add x.rep.toNat y.rep.toNat) (x + y)
    (residue modulus.toNat x + residue modulus.toNat y)
  sub : Exact (Checked.sub x.rep.toNat y.rep.toNat) (x - y)
    (residue modulus.toNat x - residue modulus.toNat y)
  neg : Exact (Checked.sub 0 x.rep.toNat) (-x) (-residue modulus.toNat x)
  mul : Exact (Checked.mul x.rep.toNat y.rep.toNat) (x * y)
    (residue modulus.toNat x * residue modulus.toNat y)
  sum : Exact ((xs.map (·.rep.toNat)).foldlM Checked.add x.rep.toNat) (xs.foldl (· + ·) x)
    (residue modulus.toNat x + (xs.map (residue modulus.toNat)).sum)
  product : Exact ((xs.map (·.rep.toNat)).foldlM Checked.mul x.rep.toNat) (xs.foldl (· * ·) x)
    (residue modulus.toNat x * (xs.map (residue modulus.toNat)).prod)
  beq_iff : x == y ↔ residue modulus.toNat x = residue modulus.toNat y
  isZero_iff : MacElement.isZero x ↔ residue modulus.toNat x = 0

theorem fieldOperations (hx : Element.isCanonical x) (hy : Element.isCanonical y)
    {xs : List Mersenne61} (hxs : ∀ z ∈ xs, Element.isCanonical z) : FieldOperations x y xs where
  add := exact_add hx hy
  sub := exact_sub hx hy
  neg := exact_neg hx
  mul := exact_mul x y
  sum := by
    have h := Exact.fold (fun _ _ => exact_add) hx hxs
    refine ⟨h.inRange, h.canonical, h.residue_eq.trans ?_⟩
    rw [List.sum_eq_foldl]
    exact (congrArg (List.foldl _ · _) (add_zero _).symm).trans List.foldl_assoc
  product := by
    have h := Exact.fold (fun x y _ _ => exact_mul x y) hx hxs
    refine ⟨h.inRange, h.canonical, h.residue_eq.trans ?_⟩
    rw [List.prod_eq_foldl]
    exact (congrArg (List.foldl _ · _) (mul_one _).symm).trans List.foldl_assoc
  beq_iff := by
    rw [beq_iff_eq]
    exact (faithful hx hy).eq_iff
  isZero_iff := (faithful hx hy).isZero_iff

/-- With canonical elements the arithmetic is that of the field. Every word stands for its residue,
and a product is right for all representations. -/
theorem arithmetic_exact (hx : Element.isCanonical x) (hy : Element.isCanonical y)
    {xs : List Mersenne61} (hxs : ∀ z ∈ xs, Element.isCanonical z) :
    FieldOperations x y xs ∧
    (∀ w : UInt64, Exact (Checked.reduce w.toNat) (ofUInt64 w) w.toNat) ∧
    ∀ u v : Mersenne61, Exact (Checked.mul u.rep.toNat v.rep.toNat) (u * v)
      (residue modulus.toNat u * residue modulus.toNat v) :=
  ⟨fieldOperations hx hy hxs, exact_ofUInt64, exact_mul⟩

/-- At the largest representations. -/
theorem arithmetic_exact_largest :
    Element.isCanonical (⟨2305843009213693950⟩ : Mersenne61) ∧
    (∀ z ∈ [(⟨2305843009213693950⟩ : Mersenne61), ⟨2⟩], Element.isCanonical z) ∧
    FieldOperations ⟨2305843009213693950⟩ ⟨2305843009213693950⟩ [⟨2305843009213693950⟩, ⟨2⟩] ∧
    (∀ w : UInt64, Exact (Checked.reduce w.toNat) (ofUInt64 w) w.toNat) ∧
    ∀ u v : Mersenne61, Exact (Checked.mul u.rep.toNat v.rep.toNat) (u * v)
      (residue modulus.toNat u * residue modulus.toNat v) := by
  have hmax : Element.isCanonical (⟨2305843009213693950⟩ : Mersenne61) := by decide
  have hlist : ∀ z ∈ [(⟨2305843009213693950⟩ : Mersenne61), ⟨2⟩], Element.isCanonical z := by decide
  exact ⟨hmax, hlist, arithmetic_exact hmax hmax hlist⟩

end AuthShares.Mersenne61
