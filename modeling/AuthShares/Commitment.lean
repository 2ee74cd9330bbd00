import AuthShares.Hash.Blake3
import AuthShares.Protocol.Messages

/-!
# Commitments and coin tossing

A commitment is the digest of a value, a nonce and the number of the party. All
parties commit before any of them opens, and with three or more parties everyone
repeats to everyone what it heard, so that no party can commit to two values. Coins
are contributions opened in this way and added bit by bit.
-/

set_option autoImplicit false

namespace AuthShares

def commit (bs : Bytes) : Bytes32 := Blake3.hash bs

def opens (commitment : Bytes32) (bs : Bytes) : Bool := commit bs == commitment

def committedBytes {α : Type} [Wire α] (value : α) (nonce : Bytes32) (party : Nat) : Bytes :=
  Wire.encode value ++ nonce.toList ++ (toLittleEndian 2 party).reverse

/-- The entries of all openings, each of which has to match its commitment, except that
of the party itself. Openings are taken in the order of the parties, from `party` on. -/
def checkOpenings {α : Type} [Wire α] (me : Nat) :
    Nat → List (List Bytes32 × List (α × Bytes32)) → Except Error (List α)
  | _, [] => .ok []
  | party, (commitment :: _, (value, nonce) :: _) :: rest =>
    if party = me ∨ opens commitment (committedBytes value nonce party) then
      (checkOpenings me (party + 1) rest).map (value :: ·)
    else
      .error .commitmentMismatch
  | _, _ :: _ => .error .commitmentMismatch

def addBits (a b : Bytes32) : Bytes32 := a.zipWith (· ^^^ ·) b

def zeroBytes : Bytes32 := Vector.replicate 32 0

namespace Interaction

variable {α : Type} [Wire α]

/-- A broadcast in which, with more than two parties, all compare what they received. -/
def echoBroadcast (player : Player) (phase : String) (xs : List α) :
    Interaction (List (List α)) := do
  let all ← Link.broadcast player phase xs
  if player.players ≤ 2 then
    return all
  else
    let digests := all.map fun list => Blake3.hash (Wire.encode list)
    let views ← Link.broadcast player (phase ++ " verification") digests
    if views.all (· == digests) then return all else throw .inconsistentBroadcast

def commitThenOpen (player : Player) (phase : String) (value : α) : Interaction (List α) := do
  let nonce ← draw
  let commitment := commit (committedBytes value nonce player.me)
  let commitments ← echoBroadcast player (phase ++ " comm") [commitment]
  let openings ← Link.broadcast player (phase ++ " open") [(value, nonce)]
  ExceptT.mk (Protocol.done (checkOpenings player.me 0 (commitments.zip openings)))

def tossCoins (player : Player) : Interaction Generator := do
  let contribution ← draw
  let contributions ← commitThenOpen player "RNG" contribution
  return Generator.ofKey (contributions.foldl addBits zeroBytes)

end Interaction

end AuthShares
