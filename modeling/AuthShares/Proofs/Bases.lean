import AuthShares.Proofs.Numbering
import Mathlib.Data.Int.ModEq
import Mathlib.Tactic.Ring

/-!
# Counting from any base

A base is a word, but positions are counted with signed numbers. A base in the lower half of the
words is the same signed number, and everyone can be counted from it. One in the upper half is less
by the whole range of words as a signed number, so that positions are shifted unless the number of
players divides that range.
-/

set_option autoImplicit false

namespace AuthShares.Player

variable {n base : Nat}

def IsSigned (z : Int) : Prop := -wordRange ≤ 2 * z ∧ 2 * z < wordRange

instance (z : Int) : Decidable (IsSigned z) := inferInstanceAs (Decidable (_ ∧ _))

theorem absolute_lt (p : Player) (base position : Nat) : p.absolute base position < p.players :=
  Nat.mod_lt _ (Nat.zero_lt_of_lt p.me_lt)

/-- All `n` players can be counted from `base`: nothing overflows on the way, the position of a
player is its distance from the base around the circle, and the player at a position and the
position of a player undo each other. -/
structure Counts (n base : Nat) : Prop where
  isSigned (i : Fin n) : IsSigned (signed i - signed base)
  sum_lt (r : Nat) : r < n → base + r < wordRange
  relative_eq (i : Fin n) : ((numbered i).relative base : Int) = ((i : Int) - base) % n
  relative_lt (i : Fin n) : (numbered i).relative base < n
  relative_inj (i j : Fin n) : (numbered i).relative base = (numbered j).relative base → i = j
  absolute_relative (i : Fin n) :
    (numbered i).absolute base ((numbered i).relative base) = i
  relative_absolute (i : Fin n) (r : Nat) : r < n →
    (numbered ⟨(numbered i).absolute base r, absolute_lt _ _ _⟩).relative base = r

theorem signed_of_ge (h : wordRange ≤ 2 * base) : signed base = (base : Int) - wordRange :=
  if_neg (Nat.not_lt.mpr h)

/-- What a base loses as a signed number is a multiple of `n` in these cases only. -/
theorem dvd_sub_signed_iff :
    (n : Int) ∣ base - signed base ↔ 2 * base < wordRange ∨ n ∣ wordRange := by
  by_cases h : 2 * base < wordRange
  · simp [signed_of_lt h, h]
  · rw [signed_of_ge (Nat.not_lt.mp h), sub_sub_cancel, Int.natCast_dvd_natCast]
    simp [h]

theorem isSigned_iff (hpos : 0 < n) (hn : 4 * n ≤ wordRange) (hbase : base + n ≤ wordRange) :
    (∀ i : Fin n, IsSigned (signed i - signed base)) ↔
      2 * base < wordRange ∨ wordRange + 2 * n ≤ 2 * base := by
  unfold IsSigned
  by_cases h : 2 * base < wordRange
  · rw [signed_of_lt h]
    have hall : ∀ i : Fin n, -(wordRange : Int) ≤ 2 * (signed i - base) ∧
        2 * (signed i - base) < wordRange := by
      intro i
      have hi := i.isLt
      rw [signed_of_lt (by omega)]
      omega
    simp [h, hall]
  · rw [signed_of_ge (Nat.not_lt.mp h)]
    constructor
    · intro hall
      -- the last player is the farthest from a negative base
      have hlast := (hall ⟨n - 1, by omega⟩).2
      rw [signed_of_lt (show 2 * (n - 1) < wordRange by omega)] at hlast
      have heven : wordRange = 2 * 9223372036854775808 := rfl
      omega
    · intro hfar i
      have hi := i.isLt
      rw [signed_of_lt (by omega)]
      omega

section

variable (hn : 2 * n < wordRange)
include hn

theorem relative_emod (i : Fin n) :
    ((numbered i).relative base : Int) = ((i : Int) - signed base) % n := by
  have hi := i.isLt
  rw [relative, modulo, numbered_me, numbered_players, signed_of_lt hn,
    signed_of_lt (show 2 * i.val < wordRange by omega)]
  exact Int.toNat_of_nonneg (Int.emod_nonneg _ (by omega))

theorem relative_modEq (i : Fin n) :
    ((numbered i).relative base : Int) ≡ i - signed base [ZMOD n] := by
  rw [relative_emod hn]
  exact Int.mod_modEq _ _

theorem relative_lt_players (i : Fin n) : (numbered i).relative base < n := by
  have hi := i.isLt
  have hlt := Int.emod_lt_of_pos ((i : Int) - signed base) (show (0 : Int) < n by omega)
  rw [← relative_emod hn] at hlt
  exact Int.ofNat_lt.mp hlt

omit hn in
theorem eq_of_modEq {a b : Nat} (ha : a < n) (hb : b < n) (h : (a : Int) ≡ b [ZMOD n]) : a = b :=
  (Int.natCast_modEq_iff.mp h).eq_of_lt_of_lt ha hb

omit hn in
theorem absolute_modEq (i : Fin n) (r : Nat) :
    ((numbered i).absolute base r : Int) ≡ base + r [ZMOD n] := by
  rw [absolute, numbered_players, Int.natCast_mod, Nat.cast_add]
  exact Int.mod_modEq _ _

/-- Counting forth and back takes a player to itself just if nothing is lost of the base. -/
theorem absolute_relative_iff (i : Fin n) :
    (numbered i).absolute base ((numbered i).relative base) = i ↔
      (n : Int) ∣ base - signed base := by
  have hback : ((numbered i).absolute base ((numbered i).relative base) : Int) ≡
      i + (base - signed base) [ZMOD n] := by
    calc ((numbered i).absolute base ((numbered i).relative base) : Int)
        ≡ base + (numbered i).relative base [ZMOD n] := absolute_modEq i _
      _ ≡ base + (i - signed base) [ZMOD n] := (relative_modEq hn i).add_left _
      _ = i + (base - signed base) := by ring
  constructor
  · intro h
    rw [h] at hback
    simpa using hback.dvd
  · intro h
    apply eq_of_modEq (absolute_lt _ _ _) i.isLt
    have hsame : (i : Int) ≡ i + (base - signed base) [ZMOD n] :=
      Int.modEq_iff_dvd.mpr (by simpa using h)
    exact hback.trans hsame.symm

theorem counts_of_dvd (hbase : base + n ≤ wordRange) (hdvd : (n : Int) ∣ base - signed base)
    (hsigned : ∀ i : Fin n, IsSigned (signed i - signed base)) : Counts n base where
  isSigned := hsigned
  sum_lt r hr := by omega
  relative_eq i := by
    rw [relative_emod hn]
    apply Int.modEq_iff_dvd.mpr
    simpa [sub_sub_sub_cancel_left] using Int.dvd_neg.mpr hdvd
  relative_lt := relative_lt_players hn
  relative_inj i j h := by
    have hsame : (i : Int) - signed base ≡ j - signed base [ZMOD n] := by
      calc (i : Int) - signed base ≡ (numbered i).relative base [ZMOD n] :=
            (relative_modEq hn i).symm
        _ = (numbered j).relative base := by rw [h]
        _ ≡ j - signed base [ZMOD n] := relative_modEq hn j
    exact Fin.ext (eq_of_modEq i.isLt j.isLt (Int.ModEq.add_right_cancel' _ hsame))
  absolute_relative i := (absolute_relative_iff hn i).mpr hdvd
  relative_absolute i r hr := by
    apply eq_of_modEq (relative_lt_players hn _) hr
    calc ((numbered ⟨(numbered i).absolute base r, absolute_lt _ _ _⟩).relative base : Int)
        ≡ (numbered i).absolute base r - signed base [ZMOD n] := relative_modEq hn _
      _ ≡ base + r - signed base [ZMOD n] := (absolute_modEq i r).sub_right _
      _ = r + (base - signed base) := by ring
      _ ≡ r [ZMOD n] := (Int.modEq_iff_dvd.mpr (by simpa using hdvd)).symm

end

/-- From a base in the lower half of the words all players can be counted. From one in the upper
half they can just if their number divides the range of words and none of them is too far from the
base for a signed number; if it does not divide the range, nobody who is near enough finds itself
at its own position. -/
theorem counts_iff (hpos : 0 < n) (hn : 4 * n ≤ wordRange) (hbase : base + n ≤ wordRange) :
    (Counts n base ↔
      2 * base < wordRange ∨ n ∣ wordRange ∧ wordRange + 2 * n ≤ 2 * base) ∧
    ∀ i : Fin n, IsSigned (signed i - signed base) →
      ((numbered i).absolute base ((numbered i).relative base) = i ↔
        2 * base < wordRange ∨ n ∣ wordRange) := by
  have hhalf : 2 * n < wordRange := by omega
  constructor
  · constructor
    · intro h
      have hdvd := (absolute_relative_iff hhalf ⟨0, hpos⟩).mp (h.absolute_relative ⟨0, hpos⟩)
      have hsigned := (isSigned_iff hpos hn hbase).mp h.isSigned
      have hcases := dvd_sub_signed_iff.mp hdvd
      tauto
    · intro h
      apply counts_of_dvd hhalf hbase
      · exact dvd_sub_signed_iff.mpr (h.imp_right And.left)
      · exact (isSigned_iff hpos hn hbase).mpr (h.imp_right And.right)
  · intro i _
    rw [absolute_relative_iff hhalf, dvd_sub_signed_iff]

/-- Five players are counted from the fourth one, and four from a base in the upper half. -/
theorem counts_iff_five :
    (0 < 5 ∧ 4 * 5 ≤ wordRange ∧ 3 + 5 ≤ wordRange ∧ Counts 5 3) ∧
    0 < 4 ∧ 4 * 4 ≤ wordRange ∧ 9223372036854775812 + 4 ≤ wordRange ∧
      Counts 4 9223372036854775812 := by
  have hfive : Counts 5 3 :=
    (counts_iff (by decide) (by decide) (by decide)).1.mpr (.inl (by decide))
  have hfour : Counts 4 9223372036854775812 :=
    (counts_iff (by decide) (by decide) (by decide)).1.mpr (.inr ⟨by decide, by decide⟩)
  exact ⟨⟨by decide, by decide, by decide, hfive⟩, by decide, by decide, by decide, hfour⟩

/-- Three players and a base in the upper half: the distance of the first one from the base is a
multiple of three, but its position comes out as one, and that is where the second one is. -/
theorem upper_base_displaces :
    0 < 3 ∧ 4 * 3 ≤ wordRange ∧ 9223372036854775809 + 3 ≤ wordRange ∧
    IsSigned (signed 0 - signed 9223372036854775809) ∧
    (numbered (0 : Fin 3)).relative 9223372036854775809 = 1 ∧
    ((0 : Int) - 9223372036854775809) % 3 = 0 ∧
    (numbered (0 : Fin 3)).absolute 9223372036854775809 1 = 1 ∧
    ¬ Counts 3 9223372036854775809 := by
  refine ⟨by decide, by decide, by decide, by decide, by decide, by decide, by decide, ?_⟩
  intro h
  exact absurd (h.absolute_relative 0) (by decide)

end AuthShares.Player
