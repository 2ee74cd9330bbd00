import AuthShares.Bytes.Wire
import AuthShares.Protocol.Basic

/-!
# Typed messages and broadcasts

A typed message is a list in the wire format. In a broadcast every party sends its
list to all others and expects one of the same length from each; the result holds the
list of every party in order, its own among them.
-/

set_option autoImplicit false

namespace AuthShares

variable {α : Type} [Wire α]

def decodeList (phase : String) (bs : Bytes) : Except ChannelError (List α) :=
  match Wire.read? bs with
  | some xs => .ok xs
  | none => .error (.undecodable phase)

def decodeListOf (phase : String) (size : Nat) (bs : Bytes) : Except ChannelError (List α) :=
  match decodeList phase bs with
  | .ok xs => if xs.length = size then .ok xs else .error (.wrongLength phase)
  | .error e => .error e

namespace Link

def sendList (party : Nat) (phase : String) (xs : List α) : Link Unit :=
  send party phase (Wire.encode xs)

def receiveList (party : Nat) (phase : String) : Link (List α) := do
  let lists ← gather 1 phase [party] (decodeList phase)
  return lists.headD []

def receiveListOf (party : Nat) (phase : String) (size : Nat) : Link (List α) := do
  let lists ← gather 1 phase [party] (decodeListOf phase size)
  return lists.headD []

def broadcast (player : Player) (phase : String) (xs : List α) : Link (List (List α)) := do
  sendAll player phase (Wire.encode xs)
  let received ← gather player.players phase player.others (decodeListOf phase xs.length)
  return received.insertIdx player.me xs

end Link

end AuthShares
