import AuthShares.Error

/-!
# Players

A player is one of `players`, numbered from zero. Counted from a base, the base itself
has the relative number zero. Numbers are words: a base in the upper half of their
range counts as the negative number with the same bits.
-/

set_option autoImplicit false

namespace AuthShares

structure Player where
  me : Nat
  players : Nat
  me_lt : me < players
  deriving DecidableEq

namespace Player

def of (me players : Nat) : Except Error Player :=
  if h : me < players then .ok ⟨me, players, h⟩ else .error (.invalidPlayer me players)

/-- The signed number with the bits of a word. -/
def signed (n : Nat) : Int := if 2 * n < wordRange then n else (n : Int) - wordRange

def modulo (a : Int) (n : Nat) : Nat := (a % signed n).toNat

def relative (p : Player) (base : Nat) : Nat := modulo (signed p.me - signed base) p.players

def absolute (p : Player) (base position : Nat) : Nat := (base + position) % p.players

def others (p : Player) : List Nat := (List.range p.players).filter (· != p.me)

end Player

end AuthShares
