import AuthShares.Aggregation.Message
import AuthShares.Aggregation.Schedule
import AuthShares.Protocol.Basic

/-!
# Sums over all players

Every player turns its list of values into the elementwise sum over all players. The
topology depends on the fan-in, the number of players and the number of values. Values
can be sent in fewer bytes than they have, if a length is declared for each of them.
-/

set_option autoImplicit false

namespace AuthShares

structure Aggregator where
  fanIn : Nat
  fanOut : Nat
  root : Nat
  packed : Bytes
  deriving DecidableEq

structure Summation (T : Type) where
  packed : Bytes
  values : List T

def openingPhase : String := "opening"

namespace Summation

variable {T : Type} [Element T]

def pack (lengths : List (Option Nat)) (start stop : Nat) : Action (Summation T) Bytes := do
  let s ← getThe (Summation T)
  let message := Message.encodeRange lengths start stop s.values
  set { s with packed := message }
  return message

def absorb (combine : Combine) (lengths : List (Option Nat)) (start stop : Nat)
    (message : Bytes) : Action (Summation T) Unit := do
  let s ← getThe (Summation T)
  let (r, values) := Message.absorbRange combine lengths start stop s.values message
  set { s with values }
  Action.ofReadResult r

def packAll (lengths : List (Option Nat)) : Action (Summation T) Bytes := do
  pack lengths 0 (← getThe (Summation T)).values.length

def absorbAll (combine : Combine) (lengths : List (Option Nat)) (message : Bytes) :
    Action (Summation T) Unit := do
  absorb combine lengths 0 (← getThe (Summation T)).values.length message

def absorbEach (combine : Combine) (lengths : List (Option Nat)) :
    List Bytes → Action (Summation T) Unit
  | [] => return ()
  | message :: rest => do
    absorbAll combine lengths message
    absorbEach combine lengths rest

def reduceRound (player : Player) (root : Nat) (lengths : List (Option Nat))
    (round : TreeRound) : Action (Summation T) Unit :=
  match round.role (player.relative root) with
  | .report target => do
    let message ← packAll lengths
    Link.send (player.absolute root target) openingPhase message
  | .collect sources => do
    let messages ← Link.gatherBytes openingPhase (sources.map (player.absolute root))
    absorbEach .add lengths messages
  | .idle => return ()

def reduceUp (player : Player) (root : Nat) (lengths : List (Option Nat)) :
    List TreeRound → Action (Summation T) Unit
  | [] => return ()
  | round :: rest => do
    reduceRound player root lengths round
    reduceUp player root lengths rest

def hearDown (player : Player) (root fanOut : Nat) (lengths : List (Option Nat)) :
    Action (Summation T) Bytes :=
  let position := player.relative root
  if position = 0 then
    packAll lengths
  else do
    let message ← Link.receive (player.absolute root (treeParent fanOut position)) openingPhase
    absorbAll .replace lengths message
    return message

def tellDown (player : Player) (root fanOut : Nat) (lengths : List (Option Nat)) :
    Action (Summation T) Unit := do
  let position := player.relative root
  let message ← hearDown player root fanOut lengths
  let children := (treeChildren fanOut player.players position).map (player.absolute root)
  Link.scatter (treeSpan fanOut player.players position) openingPhase
    (children.map fun child => (child, message))

def trade (step : Step) (message : Bytes) : Link Bytes :=
  if step.sendFirst then do
    Link.send step.target openingPhase message
    Link.receive step.source openingPhase
  else do
    let received ← Link.receive step.source openingPhase
    Link.send step.target openingPhase message
    return received

def followStep (player : Player) (combine : Combine) (lengths : List (Option Nat))
    (step : Step) : Action (Summation T) Unit := do
  let size := (← getThe (Summation T)).values.length
  let start := blockStart step.sendBlock player.players size
  let message ← pack lengths start (blockStop step.sendBlock player.players size)
  let received ← trade step message
  let start := blockStart step.receiveBlock player.players size
  absorb combine lengths start (blockStop step.receiveBlock player.players size) received

def follow (player : Player) (combine : Combine) (lengths : List (Option Nat)) :
    List Step → Action (Summation T) Unit
  | [] => return ()
  | step :: rest => do
    followStep player combine lengths step
    follow player combine lengths rest

def checkLengths (T : Type) [Element T] : List (Option Nat) → Except ReadError Unit
  | [] => .ok ()
  | len :: rest => do
    let _ ← declaredLength (Element.size T) len
    checkLengths T rest

def direct (player : Player) (lengths : List (Option Nat)) : Action (Summation T) Unit := do
  Action.ofReadResult (checkLengths T lengths)
  let message ← packAll lengths
  Link.sendAll player openingPhase message
  let messages ← Link.gatherBytes openingPhase player.others
  absorbEach .add lengths messages

end Summation

namespace Aggregator

variable {T : Type} [Element T]

def ofConfig (c : Config) : Aggregator := ⟨c.fanIn, c.fanOut, c.root, []⟩

/-- Changes a parameter of the topology; other fields of a configuration have no effect. -/
def set (a : Aggregator) (field : Config.Field) (n : Nat) : Aggregator :=
  match field with
  | .fanIn => { a with fanIn := n }
  | .fanOut => { a with fanOut := n }
  | .root => { a with root := n }
  | .checkAfter => a

def topology (a : Aggregator) (players size : Nat) : Topology :=
  .select a.fanIn players size

/-- Declared lengths only count if there is one for every value. -/
def usedLengths (size : Nat) (lengths : List (Option Nat)) : List (Option Nat) :=
  if lengths.length = size then lengths else []

def exchange (a : Aggregator) (player : Player) (lengths : List (Option Nat)) :
    Action (Summation T) Unit := do
  let size := (← getThe (Summation T)).values.length
  let lengths := usedLengths size lengths
  Action.ofReadResult (Summation.checkLengths T lengths)
  match a.topology player.players size with
  | .tree =>
    let root := a.root % player.players
    let fanIn := min (effectiveFan a.fanIn player.players) player.players
    Summation.reduceUp player root lengths (treeRounds fanIn player.players)
    Summation.tellDown player root (effectiveFan a.fanOut player.players) lengths
  | .ring =>
    Summation.follow player .add lengths (ringReduce player.me player.players)
    Summation.follow player .replace lengths (ringGather player.me player.players)
  | .rotatedStar =>
    Summation.follow player .add lengths (starReduce player.me player.players)
    Summation.follow player .replace lengths (starGather player.me player.players)

/-- Sums values over all players. The values are returned also when the sum fails: some
of them may then have been added to. -/
def sumEach (player : Player) (lengths : List (Option Nat)) (values : List T) :
    StateT Aggregator Protocol (Except Error Unit × List T) := fun a => do
  let (r, s) ← (exchange a player lengths).run ⟨a.packed, values⟩
  return ((r, s.values), { a with packed := s.packed })

def sum (player : Player) (lengths : List (Option Nat)) (values : List T) :
    Action Aggregator (List T) := ExceptT.mk do
  let (r, values) ← sumEach player lengths values
  return r.map fun _ => values

def sumOne (player : Player) (value : T) : Action Aggregator T := do
  let values ← sum player [] [value]
  return values.headD value

end Aggregator

end AuthShares
