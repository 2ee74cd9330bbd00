import AuthShares.Opening.Field

/-!
# Opening low halves of ring elements

Over a ring only the low part of every share is sent. The check opens a random
combination of the full shares, masked in its upper part by a random sharing. Its low
part has to agree with the values opened before, and its authentication has to be right.
-/

set_option autoImplicit false

namespace AuthShares

structure RingOpener (T : Type) where
  base : Opener T
  masks : Option (List (Share T))
  pendingShares : List T
  waitingShares : List T
  deriving DecidableEq

namespace RingOpener

variable {T : Type}

def new (mode : ExchangeMode) (keyShare : T) (c : Config) : RingOpener T :=
  ⟨.new mode keyShare c, none, [], []⟩

def setMasks (o : RingOpener T) (masks : List (Share T)) : RingOpener T :=
  { o with masks := some masks }

def start (o : RingOpener T) : RingOpener T :=
  { o with base := o.base.start, pendingShares := [] }

def startFor? [Element T] (o : RingOpener T) (count : Nat) : Option (RingOpener T) :=
  if hasRoom count (Element.size T) then some o.start else none

def waiting (o : RingOpener T) : Nat := o.base.waiting

def setTopology (o : RingOpener T) (field : Config.Field) (n : Nat) : RingOpener T :=
  { o with base := o.base.setTopology field n }

def finish (o : RingOpener T) : List T × RingOpener T :=
  let (opened, base) := o.base.finish
  (opened, { o with base })

def onBase {α : Type} (m : Action (Opener T) α) : Action (RingOpener T) α :=
  Action.zoom (·.base) (fun o base => { o with base }) m

def takeMask : Action (RingOpener T) (Share T) := do
  let o ← getThe (RingOpener T)
  match o.masks with
  | none => throw .missingPreprocessing
  | some masks =>
    match nextMask masks with
    | .error e => throw e
    | .ok (mask, rest) =>
      set { o with masks := some rest }
      return mask

section

variable [RingElement T]

def prepare (o : RingOpener T) (share : Share T) : RingOpener T :=
  let o := if o.base.phase = .accumulating then o else o.start
  { o with
    base := o.base.prepare share (some (RingElement.visibleBytes T))
    pendingShares := o.pendingShares ++ [share.value] }

def record (o : RingOpener T) : RingOpener T :=
  { o with
    base := { o.base with opened := o.base.opened.map RingElement.low }.record
    waitingShares := o.waitingShares ++ o.pendingShares
    pendingShares := [] }

def combine (value share mac : T) : List (T × T × T) → StateM Generator (T × T × T)
  | [] => return (value, share, mac)
  | (v, s, m) :: rest => do
    let chi ← RingElement.challenge
    combine (value + chi * v) (share + chi * s) (mac + chi * m) rest

def exchangeShares (player : Player) : Action (RingOpener T) Unit :=
  tryCatch (onBase (Opener.exchangeShares player)) fun e => do
    modify fun o => { o with pendingShares := [] }
    throw e

variable [Wire T] [DecidableEq T]

def check (player : Player) : Action (RingOpener T) Unit := do
  let o ← getThe (RingOpener T)
  let values := o.base.waitingValues
  let macs := o.base.waitingMacs
  let shares := o.waitingShares
  if o.waiting = 0 then
    return ()
  else
    set { o with base := o.base.clearWaiting, waitingShares := [] }
    if values.length = shares.length ∧ macs.length = shares.length then
      let mask ← takeMask
      let generator ← Interaction.tossCoins player
      let (value, share, mac) :=
        ((combine 0 0 0 (values.zip (shares.zip macs))).run generator).1
      let masked := share + RingElement.shift mask.value
      let opened ← onBase (Action.zoom (·.aggregator) (fun o aggregator => { o with aggregator })
        (Aggregator.sumOne player masked))
      if RingElement.low opened = RingElement.low value then
        Opener.checkZero player "ring MAC check"
          (mac + RingElement.shift mask.mac - o.base.keyShare * opened)
      else
        throw .inconsistentOpening
    else
      throw .inconsistentOpening

def checkIfDue (player : Player) : Action (RingOpener T) Unit := do
  let o ← getThe (RingOpener T)
  if o.base.checkAfter ≤ o.waiting then check player else return ()

def exchange (player : Player) : Action (RingOpener T) Unit := do
  exchangeShares player
  modify record
  checkIfDue player

def takeOpened : Action (RingOpener T) (List T) := modifyGet finish

def openAll (player : Player) (shares : List (Share T)) : Action (RingOpener T) (List T) := do
  modify fun o => shares.foldl prepare o.start
  exchange player
  takeOpened

def addToCheck (player : Player) (share : Share T) (opened : T) :
    Action (RingOpener T) Unit := do
  modify fun o =>
    { o with
      base := o.base.addWaiting share.mac (RingElement.low opened)
      waitingShares := o.waitingShares ++ [share.value] }
  checkIfDue player

end

end RingOpener

end AuthShares
