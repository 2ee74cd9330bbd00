import AuthShares.Proofs.Network.Forgetting
import AuthShares.Proofs.Numbering
import AuthShares.Proofs.Opening.RingSessions

/-!
# Keeping account over a ring

An opener over a ring feeds three lists that a check combines position by position: values,
shares and authentications. Beside it runs a ledger with the same lists, which hold instead of
elements the numbers of the shares they stem from. Shares are numbered in the order in which they
are given, to all players alike. Whenever a check finds that its three lists have one length, the
opener and the ledger are kept as they are then. The ledger never acts on the opener.
-/

set_option autoImplicit false

namespace AuthShares

variable {n : Nat}

inductive Given (n : Nat) where
  | prepared (share : Fin n → Share Ring128)
  | added (share : Fin n → Share Ring128) (opened : Ring128)

namespace Given

def share : Given n → Fin n → Share Ring128
  | prepared share => share
  | added share _ => share

def opening : Given n → Ring128
  | prepared share => RingElement.low (Element.total (List.ofFn fun i => (share i).value))
  | added _ opened => RingElement.low opened

end Given

/-- An operation that all players carry out over the ring. Their shares, and their masks, need
not be valid. -/
inductive RingJoint (n : Nat) where
  | setMasks (masks : List (Fin n → Share Ring128))
  | start (count : Nat) (room : hasRoom count (Element.size Ring128) = true)
  | prepare (share : Fin n → Share Ring128)
  | exchange
  | finish
  | openAll (shares : List (Fin n → Share Ring128))
  | addToCheck (share : Fin n → Share Ring128) (opened : Ring128)
  | check

def RingJoint.run (i : Fin n) : RingJoint n → Action (RingOpener Ring128) (List Ring128)
  | .setMasks masks => do
    modify (·.setMasks (masks.map (· i)))
    return []
  | .start count room => RingOpener.operate (Player.numbered i) (.start count room)
  | .prepare share => RingOpener.operate (Player.numbered i) (.prepare (share i))
  | .exchange => RingOpener.operate (Player.numbered i) .exchange
  | .finish => RingOpener.operate (Player.numbered i) .finish
  | .openAll shares => RingOpener.operate (Player.numbered i) (.openAll (shares.map (· i)))
  | .addToCheck share opened =>
    RingOpener.operate (Player.numbered i) (.addToCheck (share i) opened)
  | .check => RingOpener.operate (Player.numbered i) .check

def RingOpener.noteAll (i : Fin n) :
    List (RingJoint n) → StateT (RingOpener Ring128) Protocol (List (RingOpener.Note Ring128))
  | [] => return []
  | joint :: rest => do
    let r ← (joint.run i).run
    let o ← getThe (RingOpener Ring128)
    let notes ← noteAll i rest
    return (r, o.waiting, o.masks) :: notes

def RingOpener.Even {T : Type} (o : RingOpener T) : Prop :=
  o.base.waitingValues.length = o.waitingShares.length ∧
    o.base.waitingMacs.length = o.waitingShares.length

instance {T : Type} (o : RingOpener T) : Decidable o.Even :=
  inferInstanceAs (Decidable (_ ∧ _))

structure RingLedger (n : Nat) where
  given : List (Given n)
  /-- The lists of the opener with the numbers of the shares. -/
  origins : RingOpener Nat
  /-- How many values and authentications each exchange has put in wait since the last check. -/
  batches : List (Nat × Nat)

namespace RingLedger

def new : RingLedger n := ⟨[], .new .aggregated 0 .default, []⟩

def start (x : RingLedger n) : RingLedger n := { x with origins := x.origins.start }

def prepare (x : RingLedger n) (share : Fin n → Share Ring128) : RingLedger n :=
  let x := if x.origins.base.phase = .accumulating then x else x.start
  let e := x.given.length
  { x with
    given := x.given ++ [.prepared share]
    origins := { x.origins with
      base := x.origins.base.prepare ⟨e, e⟩ none
      pendingShares := x.origins.pendingShares ++ [e] } }

def discard (x : RingLedger n) : RingLedger n :=
  { x with origins := { x.origins with base := x.origins.base.clear .idle, pendingShares := [] } }

def record (values macs : Nat) (x : RingLedger n) : RingLedger n :=
  { x with
    origins := { x.origins with
      base := x.origins.base.record
      waitingShares := x.origins.waitingShares ++ x.origins.pendingShares
      pendingShares := [] }
    batches := x.batches ++ [(values, macs)] }

def finish (x : RingLedger n) : RingLedger n := { x with origins := x.origins.finish.2 }

def addWaiting (x : RingLedger n) (share : Fin n → Share Ring128) (opened : Ring128) :
    RingLedger n :=
  let e := x.given.length
  { x with
    given := x.given ++ [.added share opened]
    origins := { x.origins with
      base := x.origins.base.addWaiting e e
      waitingShares := x.origins.waitingShares ++ [e] } }

def clear (x : RingLedger n) : RingLedger n :=
  { x with
    origins := { x.origins with base := x.origins.base.clearWaiting, waitingShares := [] }
    batches := [] }

end RingLedger

/-- An opener and the ledger beside it, and what both were at the checks that went on to combine
their lists. -/
structure RingAccount (n : Nat) where
  opener : RingOpener Ring128
  ledger : RingLedger n
  combined : List (RingOpener Ring128 × RingLedger n)

namespace RingAccount

def new (mode : ExchangeMode) (keyShare : Ring128) (c : Config) : RingAccount n :=
  ⟨.new mode keyShare c, .new, []⟩

variable {α : Type}

def act (m : Action (RingOpener Ring128) α) : Action (RingAccount n) α :=
  Action.zoom (·.opener) (fun s o => { s with opener := o }) m

def note (f : RingOpener Ring128 → RingLedger n → RingLedger n) : Action (RingAccount n) Unit :=
  modify fun s => { s with ledger := f s.opener s.ledger }

def take (s : RingAccount n) : RingAccount n :=
  if s.opener.waiting = 0 then s
  else
    { s with
      ledger := s.ledger.clear
      combined := if s.opener.Even then s.combined ++ [(s.opener, s.ledger)] else s.combined }

def check (player : Player) : Action (RingAccount n) Unit := do
  modify take
  act (RingOpener.check player)

def checkIfDue (player : Player) : Action (RingAccount n) Unit := do
  let s ← getThe (RingAccount n)
  if s.opener.base.checkAfter ≤ s.opener.waiting then check player else return ()

def exchangeShares (player : Player) : Action (RingAccount n) Unit :=
  tryCatch (act (RingOpener.exchangeShares player)) fun e => do
    note fun _ => .discard
    throw e

def exchange (player : Player) : Action (RingAccount n) Unit := do
  exchangeShares player
  note fun o => .record o.base.opened.length o.base.pendingMacs.length
  act (modify RingOpener.record)
  checkIfDue player

def takeOpened : Action (RingAccount n) (List Ring128) := do
  note fun _ => .finish
  act RingOpener.takeOpened

def openAll (i : Fin n) (shares : List (Fin n → Share Ring128)) :
    Action (RingAccount n) (List Ring128) := do
  note fun _ x => shares.foldl RingLedger.prepare x.start
  act (modify fun o => (shares.map (· i)).foldl RingOpener.prepare o.start)
  exchange (Player.numbered i)
  takeOpened

def addToCheck (i : Fin n) (share : Fin n → Share Ring128) (opened : Ring128) :
    Action (RingAccount n) Unit := do
  note fun _ x => x.addWaiting share opened
  act (modify fun o =>
    { o with
      base := o.base.addWaiting (share i).mac (RingElement.low opened)
      waitingShares := o.waitingShares ++ [(share i).value] })
  checkIfDue (Player.numbered i)

end RingAccount

def RingJoint.account (i : Fin n) : RingJoint n → Action (RingAccount n) (List Ring128)
  | .setMasks masks => do
    RingAccount.act (modify (·.setMasks (masks.map (· i))))
    return []
  | .start count _ => do
    RingAccount.note fun _ => .start
    RingAccount.act (modify fun o => (o.startFor? count).getD o)
    return []
  | .prepare share => do
    RingAccount.note fun _ x => x.prepare share
    RingAccount.act (modify (·.prepare (share i)))
    return []
  | .exchange => do
    RingAccount.exchange (Player.numbered i)
    return []
  | .finish => RingAccount.takeOpened
  | .openAll shares => RingAccount.openAll i shares
  | .addToCheck share opened => do
    RingAccount.addToCheck i share opened
    return []
  | .check => do
    RingAccount.check (Player.numbered i)
    return []

def RingAccount.noteAll (i : Fin n) :
    List (RingJoint n) → StateT (RingAccount n) Protocol (List (RingOpener.Note Ring128))
  | [] => return []
  | joint :: rest => do
    let r ← (joint.account i).run
    let s ← getThe (RingAccount n)
    let notes ← noteAll i rest
    return (r, s.opener.waiting, s.opener.masks) :: notes

namespace RingAccount

variable {α : Type}

abbrev Erases (m' : Action (RingAccount n) α) (m : Action (RingOpener Ring128) α) : Prop :=
  Action.Forgets opener m' m

theorem erases_act (m : Action (RingOpener Ring128) α) : Erases (n := n) (act m) m :=
  Action.Forgets.zoom (fun _ => rfl) (fun _ _ => rfl) m

theorem erases_note_bind (f : RingOpener Ring128 → RingLedger n → RingLedger n)
    {g : Unit → Action (RingAccount n) α} {m : Action (RingOpener Ring128) α}
    (h : Erases (g ()) m) : Erases (note f >>= g) m := fun s => h ⟨s.opener, _, _⟩

theorem opener_take (s : RingAccount n) : s.take.opener = s.opener := by
  unfold take
  split <;> rfl

variable (player : Player)

theorem erases_check : Erases (n := n) (check player) (RingOpener.check player) :=
  Action.Forgets.modify_bind opener_take (erases_act _)

theorem erases_checkIfDue :
    Erases (n := n) (checkIfDue player) (RingOpener.checkIfDue player) := by
  have hdue : ∀ s : RingAccount n, Erases (n := n)
      (if s.opener.base.checkAfter ≤ s.opener.waiting then check player else pure ())
      (if s.opener.base.checkAfter ≤ s.opener.waiting then RingOpener.check player
        else pure ()) := by
    intro s
    split
    · exact erases_check player
    · exact Action.Forgets.pure ()
  exact Action.Forgets.get_bind hdue

theorem erases_exchange :
    Erases (n := n) (exchange player) (RingOpener.exchange player) := by
  have hshares : Erases (n := n) (exchangeShares player) (RingOpener.exchangeShares player) :=
    Action.Forgets.tryCatch (erases_act _) fun e => erases_note_bind _ (Action.Forgets.throw e)
  exact hshares.bind fun _ => erases_note_bind _
    ((erases_act _).bind fun _ => erases_checkIfDue player)

theorem erases_openAll (i : Fin n) (shares : List (Fin n → Share Ring128)) :
    Erases (openAll i shares) (RingOpener.openAll (Player.numbered i) (shares.map (· i))) :=
  erases_note_bind _ ((erases_act _).bind fun _ => (erases_exchange _).bind fun _ =>
    erases_note_bind _ (erases_act _))

theorem erases_addToCheck (i : Fin n) (share : Fin n → Share Ring128) (opened : Ring128) :
    Erases (addToCheck i share opened)
      (RingOpener.addToCheck (Player.numbered i) (share i) opened) :=
  erases_note_bind _ ((erases_act _).bind fun _ => erases_checkIfDue _)

theorem erases_joint (i : Fin n) (joint : RingJoint n) :
    Erases (joint.account i) (joint.run i) := by
  cases joint with
  | setMasks masks => exact (erases_act _).bind fun _ => Action.Forgets.pure []
  | start count room =>
    exact erases_note_bind _ ((erases_act _).bind fun _ => Action.Forgets.pure [])
  | prepare share =>
    exact erases_note_bind _ ((erases_act _).bind fun _ => Action.Forgets.pure [])
  | exchange => exact (erases_exchange _).bind fun _ => Action.Forgets.pure []
  | finish => exact erases_note_bind _ (erases_act _)
  | openAll shares => exact erases_openAll i shares
  | addToCheck share opened =>
    exact (erases_addToCheck i share opened).bind fun _ => Action.Forgets.pure []
  | check => exact (erases_check _).bind fun _ => Action.Forgets.pure []

/-- The operations with the ledger are those without it. -/
theorem noteAll_forgets (i : Fin n) (joints : List (RingJoint n)) :
    Forgets opener (noteAll i joints) (RingOpener.noteAll i joints) := by
  induction joints with
  | nil => exact Forgets.pure []
  | cons joint rest ih =>
    exact Forgets.bind (erases_joint i joint) fun r =>
      Forgets.get_bind fun s => ih.bind fun notes =>
        Forgets.pure ((r, s.opener.waiting, s.opener.masks) :: notes)

end RingAccount

end AuthShares
