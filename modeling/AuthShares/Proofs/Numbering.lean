import AuthShares.Player
import Mathlib.Data.Fin.Basic
import Mathlib.Tactic.Common

/-!
# Numbers around a circle

Players are counted around a circle, by strides or from a base. For as many players as
half of the words, the position counted from a base and the player at a position undo
each other.
-/

set_option autoImplicit false

namespace AuthShares

variable {n : Nat}

theorem mod_of_lt_two_mul {a n : Nat} (h : a < 2 * n) : a % n = if a < n then a else a - n := by
  split
  · rename_i hlt
    exact Nat.mod_eq_of_lt hlt
  · rename_i hge
    rw [Nat.mod_eq_sub_mod (by omega), Nat.mod_eq_of_lt (by omega)]

def onward (i : Fin n) (k : Nat) : Fin n := ⟨(i + k) % n, Nat.mod_lt _ i.pos⟩

theorem val_onward {i : Fin n} {k : Nat} (hk : k ≤ n) :
    (onward i k).val = if i + k < n then i + k else i + k - n :=
  mod_of_lt_two_mul (by omega)

theorem onward_onward {a b : Nat} (hab : a + b = n) (i : Fin n) :
    onward (onward i a) b = i := by
  apply Fin.ext
  rw [val_onward (by omega), val_onward (by omega)]
  split <;> split <;> omega

theorem onward_ne {a : Nat} (ha : 0 < a) (han : a < n) (i : Fin n) : onward i a ≠ i := by
  intro h
  have hv := congrArg Fin.val h
  rw [val_onward (by omega)] at hv
  split at hv <;> omega

namespace Player

def numbered (i : Fin n) : Player := ⟨i, n, i.isLt⟩

@[simp] theorem numbered_me (i : Fin n) : (Player.numbered i).me = i := rfl

@[simp] theorem numbered_players (i : Fin n) : (Player.numbered i).players = n := rfl

theorem mem_others {p : Player} {k : Nat} : k ∈ p.others ↔ k < p.players ∧ k ≠ p.me := by
  simp [others]

theorem others_nodup (p : Player) : p.others.Nodup := List.nodup_range.filter _

theorem signed_of_lt {k : Nat} (h : 2 * k < wordRange) : signed k = k := if_pos h

theorem relative_numbered {root : Nat} (hroot : root < n) (hn : 2 * n < wordRange) (i : Fin n) :
    (Player.numbered i).relative root = if root ≤ i then i - root else i + n - root := by
  have hi := i.isLt
  rw [relative, modulo, numbered_me, numbered_players, signed_of_lt (by omega),
    signed_of_lt (by omega), signed_of_lt hn]
  split
  · rename_i h
    rw [Int.emod_eq_of_lt (by omega) (by omega)]
    omega
  · rename_i h
    rw [← Int.add_emod_right, Int.emod_eq_of_lt (by omega) (by omega)]
    omega

theorem relative_lt {root : Nat} (hroot : root < n) (hn : 2 * n < wordRange) (i : Fin n) :
    (Player.numbered i).relative root < n := by
  have hi := i.isLt
  rw [relative_numbered hroot hn]
  split <;> omega

theorem absolute_numbered {root position : Nat} (hroot : root < n) (hp : position < n) (i : Fin n) :
    (Player.numbered i).absolute root position =
      if root + position < n then root + position else root + position - n := by
  rw [absolute, numbered_players]
  exact mod_of_lt_two_mul (by omega)

def place {root : Nat} (hroot : root < n) (position : Nat) : Fin n :=
  ⟨(root + position) % n, Nat.mod_lt _ (by omega)⟩

theorem absolute_eq_place {root : Nat} (hroot : root < n) (i : Fin n) (position : Nat) :
    (Player.numbered i).absolute root position = place hroot position := rfl

theorem place_relative {root : Nat} (hroot : root < n) (hn : 2 * n < wordRange) (i : Fin n) :
    place hroot ((Player.numbered i).relative root) = i := by
  have hi := i.isLt
  apply Fin.ext
  rw [← absolute_eq_place hroot i, absolute_numbered hroot (relative_lt hroot hn i),
    relative_numbered hroot hn]
  split <;> split <;> omega

theorem relative_place {root : Nat} (hroot : root < n) (hn : 2 * n < wordRange) {position : Nat}
    (hp : position < n) : (Player.numbered (place hroot position)).relative root = position := by
  have hv : (place hroot position).val =
      if root + position < n then root + position else root + position - n :=
    mod_of_lt_two_mul (by omega)
  rw [relative_numbered hroot hn, hv]
  split <;> split <;> omega

end Player

end AuthShares
