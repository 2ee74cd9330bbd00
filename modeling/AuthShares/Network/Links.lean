import AuthShares.Protocol.Basic
import Std.Data.HashMap

/-!
# Connections

Every party has an inbox, which keeps the messages for it as they came; those of one
source are a queue, which may be bounded. A message offered to a full queue has to
wait until one is taken from it. When a party has left, sending to it fails, and
receiving from it fails once its messages are used up.

The parties have their turns in rounds. Bounded connections allow only so many
transfers in one round, all parties together: handing over a message, ending the wait
for one, and beginning to wait each count as one. What is left of the allowance when
all parties have ended is there for those that begin next.
-/

set_option autoImplicit false

namespace AuthShares

/-- How waits for messages are served. On shared connections any wait for a source may
take its messages, and all waits that are overdue end at the same moment. In line, one
wait after the other is served, and one that is overdue goes on until it is looked at. -/
inductive Service where
  | shared
  | inLine
  deriving DecidableEq, Repr

inductive Notice where
  | mail (source : Nat)
  | room (target : Nat)
  deriving DecidableEq, Repr

structure Links where
  parties : Nat
  capacity : Option Nat
  service : Service
  left : List Nat
  inboxes : Std.HashMap Nat (List (Nat × Bytes))
  /-- The notices of the round before and of this round for each party, the last first. -/
  earlier : Std.HashMap Nat (List Notice)
  recent : Std.HashMap Nat (List Notice)
  /-- How often the waits have become overdue so far. -/
  clock : Nat
  /-- How many transfers are left in this round, if they are counted. -/
  allowance : Option Nat

inductive Offer where
  | accepted (links : Links)
  | full
  | late
  | refused (fault : SendFault)

inductive Arrival where
  | message (bs : Bytes) (links : Links)
  | nothing
  | refused (fault : ReceiveFault)

namespace Links

def unbounded (parties : Nat) : Links := ⟨parties, none, .shared, [], {}, {}, {}, 0, none⟩

def maxCapacity : Nat := 2305843009213693951

/-- How many transfers all parties together have in one round of bounded connections. -/
def perRound : Nat := 128

def bounded (parties capacity : Nat) : Option Links :=
  if 2 ≤ parties ∧ (capacity = 0 ∨ maxCapacity < capacity) then none
  else some ⟨parties, some capacity, .inLine, [], {}, {}, {}, 0, some perRound⟩

def isSpent (l : Links) : Bool := l.allowance == some 0

def spend (l : Links) : Links := { l with allowance := l.allowance.map (· - 1) }

def nextRound (l : Links) : Links :=
  { l with earlier := l.recent, recent := {}, allowance := l.allowance.map fun _ => perRound }

/-- Lets all waits become overdue that have begun. -/
def tick (l : Links) : Links := { l with clock := l.clock + 1 }

def notify (l : Links) (party : Nat) (notice : Notice) : Links :=
  match l.service with
  | .shared => l
  | .inLine => { l with recent := l.recent.insert party (notice :: l.recent.getD party []) }

def notices (l : Links) (party : Nat) : List Notice × List Notice :=
  ((l.earlier.getD party []).reverse, (l.recent.getD party []).reverse)

def dropNotices (l : Links) (party : Nat) : Links :=
  match l.service with
  | .shared => l
  | .inLine => { l with earlier := l.earlier.erase party, recent := l.recent.erase party }

def inbox (l : Links) (target : Nat) : List (Nat × Bytes) := l.inboxes.getD target []

def setInbox (l : Links) (target : Nat) (messages : List (Nat × Bytes)) : Links :=
  { l with inboxes := l.inboxes.insert target messages }

def queue (l : Links) (source target : Nat) : List Bytes :=
  (l.inbox target).filterMap fun (s, bs) => if s = source then some bs else none

def connected (l : Links) (a b : Nat) : Bool := b < l.parties && a != b

def isFull (l : Links) (source target : Nat) : Bool :=
  match l.capacity with
  | none => false
  | some capacity => capacity ≤ (l.queue source target).length

def push (l : Links) (source target : Nat) (bs : Bytes) : Links :=
  (l.setInbox target (l.inbox target ++ [(source, bs)])).notify target (.mail source)

def pop (l : Links) (source target : Nat) : Links :=
  let popped := l.setInbox target ((l.inbox target).eraseP (·.1 == source))
  if l.isFull source target then popped.notify source (.room target) else popped

def offer (l : Links) (source target : Nat) (bs : Bytes) : Offer :=
  if !l.connected source target then .refused (.noSuchParty target)
  else if l.left.contains target then .refused .closed
  else if l.isSpent then .late
  else if l.isFull source target then .full
  else .accepted (l.push source target bs).spend

def take (l : Links) (target source : Nat) : Arrival :=
  if !l.connected target source then .refused (.noSuchParty source)
  else
    match (l.inbox target).find? (·.1 == source) with
    | some (_, bs) => .message bs (l.pop source target)
    | none => if l.left.contains source then .refused .closed else .nothing

def leave (l : Links) (party : Nat) : Links := { l with left := party :: l.left }

def unread (l : Links) : Nat := l.inboxes.fold (fun n _ messages => n + messages.length) 0

end Links

end AuthShares
