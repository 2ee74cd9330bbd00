import AuthShares.Error
import AuthShares.Share

/-!
# A trusted dealer

The dealer knows the key and hands out authenticated sharings. All but the last share
are random; the last one makes up the difference. One generator feeds the key, the
value shares, the shares of the authentication and the secrets of the masks.
-/

set_option autoImplicit false

namespace AuthShares

structure Dealer (T : Type) where
  key : T
  keyShares : List T
  generator : Generator
  deriving DecidableEq

namespace Dealer

variable {T : Type} [MacElement T]

def randoms : Nat → StateM Generator (List T)
  | 0 => return []
  | n + 1 => do
    let x ← MacElement.random
    let xs ← randoms n
    return x :: xs

/-- Elements of which all but the last are given, and which sum to `x`. -/
def complete (x : T) (xs : List T) : List T := xs ++ [xs.foldl (· - ·) x]

def new (players : Nat) (seed : UInt64) : Dealer T :=
  let (keyShares, generator) := (randoms players).run (Generator.ofSeed seed)
  ⟨Element.total keyShares, keyShares, generator⟩

def draw {α : Type} (m : StateM Generator α) : StateM (Dealer T) α := fun d =>
  let (a, generator) := m.run d.generator
  (a, { d with generator })

def authenticate (values : List T) : StateM (Dealer T) (List (Share T)) := do
  let key := (← get).key
  let macs ← draw (randoms (values.length - 1))
  return List.zipWith Share.mk values (complete (key * Element.total values) macs)

def share (secret : T) : StateM (Dealer T) (List (Share T)) := do
  let players := (← get).keyShares.length
  let values ← draw (randoms (players - 1))
  authenticate (complete secret values)

def masks : Nat → StateM (Dealer T) (List (List (Share T)))
  | 0 => return (← get).keyShares.map fun _ => []
  | n + 1 => do
    let sharing ← share (← draw MacElement.random)
    let queues ← masks n
    return List.zipWith (· :: ·) sharing queues

def masksFor? (count : Nat) : Option (StateM (Dealer T) (List (List (Share T)))) :=
  if hasRoom count (2 * Element.size T) then some (masks count) else none

end Dealer

def nextMask {T : Type} : List (Share T) → Except Error (Share T × List (Share T))
  | [] => .error .preprocessingExhausted
  | mask :: rest => .ok (mask, rest)

end AuthShares
