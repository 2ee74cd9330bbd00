import AuthShares.Aggregation.Aggregator
import AuthShares.Commitment
import AuthShares.Dealer

/-!
# Opening shares and checking them in batches

Shares are collected in a batch and opened together. Every opened value waits, with its
share of the authentication, for a check: a random combination of all waiting values
whose error is opened by commitment and has to be zero. A check is due once enough
values wait, and discards what it has checked whatever it finds.
-/

set_option autoImplicit false

namespace AuthShares

inductive ExchangeMode where
  | aggregated
  | direct
  deriving DecidableEq, Repr

inductive Phase where
  | idle
  | accumulating
  | exchanged
  deriving DecidableEq, Repr

def ExchangeMode.name : ExchangeMode → String
  | .aggregated => "Aggregated"
  | .direct => "Direct"

def Phase.name : Phase → String
  | .idle => "Idle"
  | .accumulating => "Accumulating"
  | .exchanged => "Exchanged"

structure Opener (T : Type) where
  keyShare : T
  aggregator : Aggregator
  mode : ExchangeMode
  checkAfter : Nat
  opened : List T
  lengths : List (Option Nat)
  pendingMacs : List T
  waitingValues : List T
  waitingMacs : List T
  phase : Phase
  deriving DecidableEq

namespace Opener

variable {T : Type}

def new (mode : ExchangeMode) (keyShare : T) (c : Config) : Opener T where
  keyShare
  aggregator := .ofConfig c
  mode
  checkAfter := c.checkAfter
  opened := []
  lengths := []
  pendingMacs := []
  waitingValues := []
  waitingMacs := []
  phase := .idle

def clear (o : Opener T) (phase : Phase) : Opener T :=
  { o with opened := [], lengths := [], pendingMacs := [], phase }

def start (o : Opener T) : Opener T := o.clear .accumulating

def startFor? [Element T] (o : Opener T) (count : Nat) : Option (Opener T) :=
  if hasRoom count (Element.size T) then some o.start else none

def prepare (o : Opener T) (share : Share T) (len : Option Nat) : Opener T :=
  let o := if o.phase = .accumulating then o else o.start
  { o with
    opened := o.opened ++ [share.value]
    lengths := o.lengths ++ [len]
    pendingMacs := o.pendingMacs ++ [share.mac] }

def record (o : Opener T) : Opener T :=
  { o with
    waitingValues := o.waitingValues ++ o.opened
    waitingMacs := o.waitingMacs ++ o.pendingMacs
    pendingMacs := []
    phase := .exchanged }

def finish (o : Opener T) : List T × Opener T :=
  (o.opened, { o with opened := [], phase := .idle })

def addWaiting (o : Opener T) (mac opened : T) : Opener T :=
  { o with
    waitingValues := o.waitingValues ++ [opened]
    waitingMacs := o.waitingMacs ++ [mac] }

def waiting (o : Opener T) : Nat := max o.waitingMacs.length o.waitingValues.length

def clearWaiting (o : Opener T) : Opener T :=
  { o with waitingValues := [], waitingMacs := [] }

def setTopology (o : Opener T) (field : Config.Field) (n : Nat) : Opener T :=
  { o with aggregator := o.aggregator.set field n }

section

variable [MacElement T]

def sumShares (player : Player) (o : Opener T) :
    Protocol ((Except Error Unit × List T) × Aggregator) :=
  match o.mode with
  | .aggregated => (Aggregator.sumEach player o.lengths o.opened).run o.aggregator
  | .direct => do
    let (r, s) ← (Summation.direct player o.lengths).run ⟨[], o.opened⟩
    return ((r, s.values), o.aggregator)

/-- Opens the shares of the batch. A batch that fails to open is discarded. -/
def exchangeShares (player : Player) : Action (Opener T) Unit := do
  let o ← getThe (Opener T)
  let ((r, opened), aggregator) ← Action.ofProtocol (sumShares player o)
  match r with
  | .ok () => set { o with opened, aggregator }
  | .error e =>
    set ({ o with aggregator }.clear .idle)
    throw e

def combine (value mac : T) : List (T × T) → StateM Generator (T × T)
  | [] => return (value, mac)
  | (v, m) :: rest => do
    let chi ← MacElement.random
    combine (value + chi * v) (mac + chi * m) rest

def checkZero [Wire T] (player : Player) (phase : String) (share : T) : Interaction Unit := do
  let shares ← Interaction.commitThenOpen player phase share
  if MacElement.isZero (Element.total shares) then return () else throw .macCheckFailed

variable [Wire T]

def check (player : Player) : Action (Opener T) Unit := do
  let o ← getThe (Opener T)
  if o.waiting = 0 then
    return ()
  else
    set o.clearWaiting
    let generator ← Interaction.tossCoins player
    let (value, mac) := ((combine 0 0 (o.waitingValues.zip o.waitingMacs)).run generator).1
    checkZero player "MAC check" (mac - o.keyShare * value)

def checkIfDue (player : Player) : Action (Opener T) Unit := do
  let o ← getThe (Opener T)
  if o.checkAfter ≤ o.waiting then check player else return ()

def exchange (player : Player) : Action (Opener T) Unit := do
  exchangeShares player
  modify record
  checkIfDue player

def takeOpened : Action (Opener T) (List T) := modifyGet finish

def openAll (player : Player) (shares : List (Share T)) : Action (Opener T) (List T) := do
  modify fun o => shares.foldl (fun o share => o.prepare share none) o.start
  exchange player
  takeOpened

def openOne (player : Player) (share : Share T) : Action (Opener T) T := do
  let opened ← openAll player [share]
  return opened.headD share.value

def addToCheck (player : Player) (share : Share T) (opened : T) : Action (Opener T) Unit := do
  modify (·.addWaiting share.mac opened)
  checkIfDue player

end

end Opener

end AuthShares
