import AuthShares.Proofs.Network.Forgetting
import AuthShares.Proofs.Opening.Operations

/-!
# Keeping account of what is checked

Shares are numbered in the order in which they are given. Beside an opener runs a ledger:
the same lists with the numbers of the shares instead of elements, all values that were
put in wait of a check, and all pairs of a value and an authentication that entered the
combination of a check that passed. The ledger never acts on the opener: without it, the
operations are those that they were.
-/

set_option autoImplicit false

namespace AuthShares

variable {T α β : Type}

structure Ledger (T : Type) where
  /-- The shares of authentications, by the numbers of their shares. -/
  macs : List T
  /-- The lists of the opener with the numbers of the shares. -/
  origins : Opener Nat
  /-- The values put in wait of a check. -/
  recorded : List (T × Nat)
  /-- The pairs of values and authentications in checks that passed. -/
  checked : List ((T × Nat) × T × Nat)
  /-- How many values and authentications were put in wait by each exchange. -/
  batches : List (Nat × Nat)
  /-- The origins of all values and authentications waiting, after every change. -/
  moments : List (List Nat × List Nat)

namespace Ledger

def new (mode : ExchangeMode) (c : Config) : Ledger T := ⟨[], .new mode 0 c, [], [], [], []⟩

def move (x : Ledger T) (origins : Opener Nat) : Ledger T :=
  { x with
    origins
    moments := x.moments ++ [(origins.waitingValues, origins.waitingMacs)] }

def start (x : Ledger T) : Ledger T := x.move x.origins.start

def prepare (x : Ledger T) (share : Share T) (len : Option Nat) : Ledger T :=
  { x with macs := x.macs ++ [share.mac] }.move
    (x.origins.prepare ⟨x.macs.length, x.macs.length⟩ len)

def record (o : Opener T) (x : Ledger T) : Ledger T :=
  { x with
    recorded := x.recorded ++ o.opened.zip x.origins.opened
    batches := x.batches ++ [(o.opened.length, o.pendingMacs.length)] }.move x.origins.record

def finish (x : Ledger T) : Ledger T := x.move x.origins.finish.2

def addWaiting (x : Ledger T) (share : Share T) (opened : T) : Ledger T :=
  { x with
    macs := x.macs ++ [share.mac]
    recorded := x.recorded ++ [(opened, x.macs.length)] }.move
    (x.origins.addWaiting x.macs.length x.macs.length)

def pass (o : Opener T) (x : Ledger T) : Ledger T :=
  { x with
    checked := x.checked ++ (o.waitingValues.zip x.origins.waitingValues).zip
      (o.waitingMacs.zip x.origins.waitingMacs) }.move x.origins.clearWaiting

end Ledger

structure Account (T : Type) where
  opener : Opener T
  ledger : Ledger T

namespace Account

def act (m : Action (Opener T) α) : Action (Account T) α :=
  Action.zoom (·.opener) (fun s o => { s with opener := o }) m

def note (f : Opener T → Ledger T → Ledger T) : Action (Account T) Unit :=
  modify fun s => { s with ledger := f s.opener s.ledger }

section

variable [MacElement T]

variable [Wire T]

def check (player : Player) : Action (Account T) Unit := do
  let s ← getThe (Account T)
  act (Opener.check player)
  note fun _ => .pass s.opener

def checkIfDue (player : Player) : Action (Account T) Unit := do
  let s ← getThe (Account T)
  if s.opener.checkAfter ≤ s.opener.waiting then check player else return ()

def exchange (player : Player) : Action (Account T) Unit := do
  act (Opener.exchangeShares player)
  note .record
  act (modify Opener.record)
  checkIfDue player

def takeOpened : Action (Account T) (List T) := do
  note fun _ => .finish
  act Opener.takeOpened

def openAll (player : Player) (shares : List (Share T)) : Action (Account T) (List T) := do
  note fun _ x => shares.foldl (fun x share => x.prepare share none) x.start
  act (modify fun o => shares.foldl (fun o share => o.prepare share none) o.start)
  exchange player
  takeOpened

def openOne (player : Player) (share : Share T) : Action (Account T) T := do
  let opened ← openAll player [share]
  return opened.headD share.value

def addToCheck (player : Player) (share : Share T) (opened : T) : Action (Account T) Unit := do
  note fun _ x => x.addWaiting share opened
  act (modify (·.addWaiting share.mac opened))
  checkIfDue player

end

end Account

def Operation.account [MacElement T] [Wire T] (player : Player) :
    Operation T → Action (Account T) (List T)
  | .start count _ => do
    Account.note fun _ => .start
    Account.act (modify fun o => (o.startFor? count).getD o)
    return []
  | .prepare share len => do
    Account.note fun _ x => x.prepare share len
    Account.act (modify (·.prepare share len))
    return []
  | .exchange => do
    Account.exchange player
    return []
  | .finish => Account.takeOpened
  | .openAll shares => Account.openAll player shares
  | .openOne share => do
    let opened ← Account.openOne player share
    return [opened]
  | .addToCheck share opened => do
    Account.addToCheck player share opened
    return []
  | .check => do
    Account.check player
    return []
  | .checkIfDue => do
    Account.checkIfDue player
    return []

def Erases (m' : Action (Account T) α) (m : Action (Opener T) α) : Prop :=
  ∀ s, (m'.run.run s).bind (fun x => .done (x.1, x.2.opener)) = m.run.run s.opener

namespace Erases

variable {m' : Action (Account T) α} {m : Action (Opener T) α}

theorem pure (a : α) : Erases (Pure.pure a : Action (Account T) α) (Pure.pure a) := fun _ => rfl

theorem bind {f' : α → Action (Account T) β} {f : α → Action (Opener T) β} (h : Erases m' m)
    (hf : ∀ a, Erases (f' a) (f a)) : Erases (m' >>= f') (m >>= f) :=
  Action.Forgets.bind h hf

theorem act (m : Action (Opener T) α) : Erases (Account.act m) m :=
  Action.Forgets.zoom (fun _ => rfl) (fun _ _ => rfl) m

theorem note_bind (f : Opener T → Ledger T → Ledger T) {g : Unit → Action (Account T) α}
    (h : Erases (g ()) m) : Erases (Account.note f >>= g) m :=
  Action.Forgets.modify_bind (by intro _; rfl) h

theorem bind_note {m' : Action (Account T) Unit} {m : Action (Opener T) Unit} (h : Erases m' m)
    (f : Opener T → Ledger T → Ledger T) : Erases (m' >>= fun _ => Account.note f) m :=
  Action.Forgets.bind_modify h fun _ => rfl

theorem read_bind {g : Account T → Action (Account T) α} (h : ∀ s, Erases (g s) m) :
    Erases (getThe (Account T) >>= g) m := Action.Forgets.read_bind h

theorem get_bind {g' : Account T → Action (Account T) α} {g : Opener T → Action (Opener T) α}
    (h : ∀ s, Erases (g' s) (g s.opener)) :
    Erases (getThe (Account T) >>= g') (getThe (Opener T) >>= g) := Action.Forgets.get_bind h

variable [MacElement T] [Wire T] (player : Player)

theorem check : Erases (Account.check (T := T) player) (Opener.check player) :=
  read_bind fun _ => bind_note (act _) _

theorem checkIfDue : Erases (Account.checkIfDue (T := T) player) (Opener.checkIfDue player) := by
  refine get_bind fun s => ?_
  by_cases hdue : s.opener.checkAfter ≤ s.opener.waiting
  · simp only [hdue, ↓reduceIte]
    exact check player
  · simp only [hdue, ↓reduceIte]
    exact pure ()

theorem exchange : Erases (Account.exchange (T := T) player) (Opener.exchange player) :=
  (act _).bind fun _ => note_bind _ ((act _).bind fun _ => checkIfDue player)

theorem openAll (shares : List (Share T)) :
    Erases (Account.openAll player shares) (Opener.openAll player shares) :=
  note_bind _ ((act _).bind fun _ => (exchange player).bind fun _ => note_bind _ (act _))

theorem operation (operation : Operation T) :
    Erases (operation.account player) (operation.run player) := by
  cases operation with
  | start count room => exact note_bind _ ((act _).bind fun _ => pure [])
  | prepare share len => exact note_bind _ ((act _).bind fun _ => pure [])
  | exchange => exact (exchange player).bind fun _ => pure []
  | finish => exact note_bind _ (act _)
  | openAll shares => exact openAll player shares
  | openOne share =>
    exact ((openAll player [share]).bind fun opened => pure (opened.headD share.value)).bind
      fun opened => pure [opened]
  | addToCheck share opened =>
    exact (note_bind _ ((act _).bind fun _ => checkIfDue player)).bind fun _ => pure []
  | check => exact (check player).bind fun _ => pure []
  | checkIfDue => exact (checkIfDue player).bind fun _ => pure []

end Erases

variable [MacElement T] [Wire T]

end AuthShares
