/-!
# Who talks to whom

A sum is formed up a tree and told down a tree, or it travels in blocks around a ring,
or along a star that turns by one player every round. Positions in the tree are counted
from its root. Schedules are plain data; nothing here depends on what is sent.
-/

set_option autoImplicit false

namespace AuthShares

inductive Topology where
  | tree
  | ring
  | rotatedStar
  deriving DecidableEq, Repr

namespace Topology

/-- A fan-in that covers all players and does not exceed the number of values selects
the ring if it is odd and the star if it is even; any other one selects the tree. -/
def select (fanIn players size : Nat) : Topology :=
  if fanIn < players ∨ size < fanIn then .tree
  else if fanIn % 2 = 1 then .ring
  else .rotatedStar

def name : Topology → String
  | .tree => "Tree"
  | .ring => "Ring"
  | .rotatedStar => "RotatedStar"

end Topology

/-- One round up the tree: the first `remaining` of `active` positions go on. -/
structure TreeRound where
  active : Nat
  remaining : Nat
  deriving DecidableEq, Repr

inductive TreeRole where
  | collect (sources : List Nat)
  | report (target : Nat)
  | idle
  deriving DecidableEq, Repr

def treeRounds (fanIn active : Nat) : List TreeRound :=
  let remaining := (active + fanIn - 2) / fanIn
  if 0 < remaining ∧ remaining < active then
    ⟨active, remaining⟩ :: treeRounds fanIn remaining
  else
    []
termination_by active
decreasing_by omega

def TreeRound.role (r : TreeRound) (position : Nat) : TreeRole :=
  if position < r.remaining then
    .collect ((List.range ((r.active - 1 - position) / r.remaining)).map fun k =>
      position + (k + 1) * r.remaining)
  else if position < r.active then
    .report (position % r.remaining)
  else
    .idle

def treeParent (fanOut position : Nat) : Nat := position / fanOut

/-- How many positions have `position` for their parent; the root counts itself. -/
def treeSpan (fanOut players position : Nat) : Nat :=
  min (position * fanOut + fanOut) players - position * fanOut

def treeChildren (fanOut players position : Nat) : List Nat :=
  (List.range' (position * fanOut) (treeSpan fanOut players position)).filter (· != position)

structure Step where
  target : Nat
  sendBlock : Nat
  source : Nat
  receiveBlock : Nat
  sendFirst : Bool
  deriving DecidableEq, Repr

/-- The values of block `index`: all blocks have the same size, and the last one takes
what is left over. -/
def blockStart (index players size : Nat) : Nat := index * (size / players)

def blockStop (index players size : Nat) : Nat :=
  if index + 1 = players then size else blockStart index players size + size / players

/-- The rounds around the ring after which `me` holds the sum of block `me + 1`. -/
def ringReduce (me players : Nat) : List Step :=
  (List.range (players - 1)).map fun round =>
    { target := (me + 1) % players
      sendBlock := (me + players - round) % players
      source := (me + players - 1) % players
      receiveBlock := (me + players - 1 - round) % players
      sendFirst := me % 2 == 0 }

def ringGather (me players : Nat) : List Step :=
  (List.range (players - 1)).map fun round =>
    { target := (me + 1) % players
      sendBlock := (me + 1 + players - round) % players
      source := (me + players - 1) % players
      receiveBlock := (me + players - round) % players
      sendFirst := me % 2 == 0 }

/-- How many strides lead to `me` from the least member of its cycle under addition of
`stride`. -/
def cyclePosition (me players stride : Nat) : Nat :=
  ((List.range players).find? fun k =>
    (me % Nat.gcd players stride + k * stride) % players == me).getD 0

/-- Colors a cycle by turns, so that neighbours differ except where an odd cycle closes. -/
def starColor (me players stride : Nat) : Nat := cyclePosition me players stride % 2

def starReduce (me players : Nat) : List Step :=
  (List.range' 1 (players - 1)).map fun j =>
    { target := (me + players - j) % players
      sendBlock := (me + players - j) % players
      source := (me + j) % players
      receiveBlock := me
      sendFirst := starColor me players (players - j) == 0 }

def starGather (me players : Nat) : List Step :=
  (List.range' 1 (players - 1)).map fun j =>
    { target := (me + j) % players
      sendBlock := me
      source := (me + players - j) % players
      receiveBlock := (me + players - j) % players
      sendFirst := starColor me players j == 0 }

end AuthShares
