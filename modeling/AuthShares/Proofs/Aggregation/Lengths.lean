import AuthShares.Proofs.Aggregation.Contributions
import AuthShares.Proofs.Element.Written
import Mathlib.Algebra.BigOperators.Ring.Finset

/-!
# Values cut to their declared lengths

A value that is sent is cut to the first bytes if it is declared to be shorter. What
arrives is the representation modulo the numbers that fit into the declared bytes; a value
that has arrived can be sent on without another loss. So sums are right modulo what the
declared bytes and the modulus have in common.
-/

set_option autoImplicit false

namespace AuthShares

namespace Element

def width (T : Type) [Element T] (len : Option Nat) : Nat := len.getD (size T)

def widthAt (T : Type) [Element T] (lengths : List (Option Nat)) (k : Nat) : Nat :=
  width T (lengths.getD k none)

def Fits (T : Type) [Element T] (lengths : List (Option Nat)) : Prop :=
  ∀ len ∈ lengths, width T len ≤ size T

instance (T : Type) [Element T] (lengths : List (Option Nat)) : Decidable (Fits T lengths) :=
  inferInstanceAs (Decidable (∀ len ∈ lengths, width T len ≤ size T))

section Fits

variable {T : Type} [Element T] {lengths : List (Option Nat)}

theorem Fits.widthAt_le (h : Fits T lengths) (k : Nat) : widthAt T lengths k ≤ size T := by
  unfold widthAt
  by_cases hk : k < lengths.length
  · rw [List.getD_eq_getElem _ _ hk]
    exact h _ (List.getElem_mem hk)
  · rw [List.getD_eq_default _ _ (by omega)]
    exact le_rfl

theorem Fits.nil : Fits T [] := fun _ h => nomatch h

theorem Fits.drop (h : Fits T lengths) (k : Nat) : Fits T (lengths.drop k) :=
  fun len hlen => h len (List.mem_of_mem_drop hlen)

theorem declaredLength_width {len : Option Nat} (h : width T len ≤ size T) :
    declaredLength (size T) len = .ok (width T len) := by
  cases len with
  | none => rfl
  | some l => exact if_pos h

theorem width_le_of_declaredLength {len : Option Nat} {k : Nat}
    (h : declaredLength (size T) len = .ok k) : width T len ≤ size T := by
  cases len with
  | none => exact le_rfl
  | some l =>
    by_cases hl : l ≤ size T
    · exact hl
    · rw [declaredLength, if_neg hl] at h
      cases h

end Fits

variable {T : Type} [MacElement T] [Written T] {len : Option Nat} {x : T}

open Modular

theorem packed_eq (hlen : width T len ≤ size T) (x : T) :
    packed len x = toLittleEndian (width T len) (rep x) := by
  cases len with
  | none => exact Written.toBytes_eq x
  | some l =>
    rw [packed, Written.toBytes_eq]
    exact take_toLittleEndian hlen _

theorem length_packed (hlen : width T len ≤ size T) (x : T) :
    (packed len x).length = width T len := by
  rw [packed_eq hlen, length_toLittleEndian]

theorem rep_lt_size (hx : isCanonical x) : rep x < byteRange (size T) := by
  have h := congrArg rep (ofBytes_toBytes x hx)
  rw [Written.rep_ofBytes _ (length_toBytes x).le, Written.toBytes_eq,
    ofLittleEndian_toLittleEndian] at h
  rw [← h]
  exact Nat.mod_lt _ (byteRange_pos _)

theorem rep_arrival (hlen : width T len ≤ size T) (x : T) :
    rep (arrival len x) = rep x % byteRange (width T len) := by
  rw [arrival, Written.rep_ofBytes _ ((length_packed hlen x).trans_le hlen), packed_eq hlen,
    ofLittleEndian_toLittleEndian]

theorem arrival_of_lt (hlen : width T len ≤ size T) (h : rep x < byteRange (width T len)) :
    arrival len x = x :=
  rep_inj _ _ (by rw [rep_arrival hlen, Nat.mod_eq_of_lt h])

theorem arrival_canonical (hlen : width T len ≤ size T) (hx : isCanonical x) :
    isCanonical (arrival len x) := by
  rcases hlen.lt_or_eq with hlt | heq
  · rw [Written.isCanonical_iff, rep_arrival hlen]
    exact (Nat.mod_lt _ (byteRange_pos _)).trans_le (Written.byteRange_le hlt)
  · rwa [arrival_of_lt hlen (heq ▸ rep_lt_size hx)]

theorem arrival_eq_ofNat (hlen : width T len ≤ size T) (hx : isCanonical x) :
    arrival len x = ofNat (rep x % byteRange (width T len)) := by
  refine rep_inj _ _ ?_
  have hlt := rep_lt _ (arrival_canonical hlen hx)
  rw [rep_arrival hlen] at hlt
  rw [rep_arrival hlen, rep_ofNat, Nat.mod_eq_of_lt hlt]

/-- Nothing is lost when a value that arrived is sent on. -/
theorem arrival_arrival (hlen : width T len ≤ size T) (x : T) :
    arrival len (arrival len x) = arrival len x :=
  arrival_of_lt hlen ((rep_arrival hlen x).trans_lt (Nat.mod_lt _ (byteRange_pos _)))

theorem sendable (hlen : width T len ≤ size T) (hx : isCanonical x) : Sendable len x where
  declared := by rw [declaredLength_width hlen, length_packed hlen]
  canonical := arrival_canonical hlen hx

/-- The number modulo which a value of a declared length is known to its receivers. -/
def accuracy (T : Type) [MacElement T] [Modular T] (len : Option Nat) : Nat :=
  if width T len = size T then modulus T else Nat.gcd (modulus T) (byteRange (width T len))

theorem accuracy_dvd (len : Option Nat) : accuracy T len ∣ modulus T := by
  unfold accuracy
  split
  · exact dvd_rfl
  · exact Nat.gcd_dvd_left _ _

theorem residue_arrival (hlen : width T len ≤ size T) (hx : isCanonical x) :
    residue (accuracy T len) (arrival len x) = residue (accuracy T len) x := by
  by_cases hfull : width T len = size T
  · rw [arrival_of_lt hlen (hfull ▸ rep_lt_size hx)]
  · have hdvd : accuracy T len ∣ byteRange (width T len) := by
      rw [accuracy, if_neg hfull]
      exact Nat.gcd_dvd_right _ _
    rw [residue, rep_arrival hlen, residue, ZMod.natCast_eq_natCast_iff]
    exact (Nat.mod_modEq _ _).of_dvd hdvd

end Element

open Element

theorem Summation.checkLengths_eq_ok_iff {T : Type} [Element T] {lengths : List (Option Nat)} :
    checkLengths T lengths = .ok () ↔ Fits T lengths := by
  induction lengths with
  | nil => exact ⟨fun _ => Fits.nil, fun _ => rfl⟩
  | cons len rest ih =>
    rw [Fits, List.forall_mem_cons, checkLengths]
    by_cases hlen : width T len ≤ size T
    · rw [declaredLength_width hlen]
      exact ih.trans (and_iff_right hlen).symm
    · refine iff_of_false (fun h => hlen ?_) fun h => hlen h.1
      cases hd : declaredLength (size T) len with
      | ok k => exact width_le_of_declaredLength hd
      | error e =>
        rw [hd] at h
        cases h

namespace Element

open scoped BigOperators
open Modular

variable {n : Nat} {T : Type} [MacElement T] [Written T] {lengths : List (Option Nat)}
  {x : Fin n → List T}

theorem Fits.faithful (h : Fits T lengths) (m : Nat) (x : Fin n → List T) :
    Faithful T lengths (fun k => accuracy T (lengths.getD k none)) m x where
  dvd _ := accuracy_dvd _
  sendable k _ _ hy := sendable (h.widthAt_le k) hy
  residue k _ _ hy _ _ := residue_arrival (h.widthAt_le k) hy

/-- The number modulo which the sum at a position is known: all of it, if the inputs together
fit into the declared bytes. -/
def precision (lengths : List (Option Nat)) (x : Fin n → List T) (k : Nat) : Nat :=
  if ∑ j, rep ((x j).getD k 0) < byteRange (widthAt T lengths k) then modulus T
  else accuracy T (lengths.getD k none)

theorem precision_eq_modulus {k : Nat} (h : widthAt T lengths k = size T ∨
    ∑ j, rep ((x j).getD k 0) < byteRange (widthAt T lengths k)) :
    precision lengths x k = modulus T := by
  unfold precision
  split
  · rfl
  · rename_i hfit
    exact if_pos (h.resolve_right hfit)

theorem dvd_precision {q : Nat} (hq : q ∣ modulus T) {k : Nat}
    (hbytes : q ∣ byteRange (widthAt T lengths k)) : q ∣ precision lengths x k := by
  unfold precision accuracy
  split
  · exact hq
  · split
    · exact hq
    · exact Nat.dvd_gcd hq hbytes

/-- Sums of some inputs arrive in full if all inputs together fit into the declared bytes. -/
theorem arrival_of_sum_lt {len : Option Nat} (hlen : width T len ≤ size T) {y : T}
    (hy : isCanonical y) {c : Fin n → T} (hsum : ∑ j, rep (c j) < byteRange (width T len))
    {W : Finset (Fin n)} (hW : residue (modulus T) y = ∑ j ∈ W, residue (modulus T) (c j)) :
    arrival len y = y := by
  refine arrival_of_lt hlen ?_
  rcases hlen.lt_or_eq with hlt | heq
  · have hsome : ∑ j ∈ W, rep (c j) < byteRange (width T len) :=
      (Finset.sum_le_sum_of_subset (Finset.subset_univ W)).trans_lt hsum
    have hmod : rep y ≡ ∑ j ∈ W, rep (c j) [MOD modulus T] := by
      rw [← ZMod.natCast_eq_natCast_iff, Nat.cast_sum]
      exact hW
    rw [hmod.eq_of_lt_of_lt (rep_lt y hy) (hsome.trans_le (Written.byteRange_le hlt))]
    exact hsome
  · exact heq ▸ rep_lt_size hy

theorem Fits.faithful_sums (h : Fits T lengths) (m : Nat) (x : Fin n → List T) :
    Faithful T lengths (precision lengths x) m x where
  dvd k := by
    unfold precision
    split
    · exact dvd_rfl
    · exact accuracy_dvd _
  sendable k _ _ hy := sendable (h.widthAt_le k) hy
  residue k _ y hy W hW := by
    by_cases hfit : ∑ j, rep ((x j).getD k 0) < byteRange (widthAt T lengths k)
    · rw [precision, if_pos hfit] at hW ⊢
      rw [arrival_of_sum_lt (h.widthAt_le k) hy hfit hW]
    · rw [precision, if_neg hfit]
      exact residue_arrival (h.widthAt_le k) hy

end Element

end AuthShares
