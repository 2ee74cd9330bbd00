import AuthShares.Protocol.Basic

/-!
# Groups of messages

The messages of one scatter, or the waits of one gather, are the parts of a group. Each
part makes a few steps before it is settled: done, or failed. A small group is over with
the first failure, a large one when a failure has no part before it that is not done; any
group is over when all its parts are done.
-/

set_option autoImplicit false

namespace AuthShares

inductive Part where
  | outgoing (target : Nat) (bs : Bytes)
  | incoming (source : Nat)

/-- How far a part has come. Before it is settled it is `fresh`, or `outside` if it was
only put off; then it is `lined`, for room or behind another wait; a wait is `first`
since a moment of the clock. -/
inductive Stage where
  | fresh
  | outside
  | lined
  | first (since : Nat)
  | done (bs : Bytes)
  | failed (e : ChannelError)

namespace Stage

def left : Stage → Nat
  | .fresh => 4
  | .outside => 3
  | .lined => 2
  | .first _ => 1
  | .done _ => 0
  | .failed _ => 0

def isSettled : Stage → Bool
  | .done _ => true
  | .failed _ => true
  | _ => false

def isFresh : Stage → Bool
  | .fresh => true
  | _ => false

def isFirst : Stage → Bool
  | .first _ => true
  | _ => false

def isLined : Stage → Bool
  | .lined => true
  | _ => false

def done? : Stage → Option Bytes
  | .done bs => some bs
  | _ => none

def isHeard : Stage → Bool
  | .done _ => true
  | .failed (.receive ..) => false
  | .failed _ => true
  | _ => false

def isOverdue (clock : Nat) : Stage → Bool
  | .first since => since < clock
  | _ => false

def putOff : Stage → Stage
  | .fresh => .outside
  | stage => stage

end Stage

abbrev Group := List (Part × Stage)

namespace Group

def ofMessages (messages : List (Nat × Bytes)) : Group :=
  messages.map fun (target, bs) => (.outgoing target bs, .fresh)

def ofSources (sources : List Nat) : Group :=
  sources.map fun source => (.incoming source, .fresh)

def left : Group → Nat
  | [] => 0
  | (_, stage) :: rest => stage.left + left rest

def unsettled : Nat → Group → List Nat
  | _, [] => []
  | i, (_, stage) :: rest =>
    if stage.isSettled then unsettled (i + 1) rest else i :: unsettled (i + 1) rest

/-- The failure that ends a group. `clear` says that all parts before it are done. -/
def fault? (settlement : Settlement) : Bool → Group → Option ChannelError
  | _, [] => none
  | clear, (_, .failed e) :: rest =>
    if settlement.ends clear then some e else fault? settlement false rest
  | clear, (_, .done _) :: rest => fault? settlement clear rest
  | _, _ :: rest => fault? settlement false rest

def messages? (g : Group) : Option (List Bytes) := g.mapM (·.2.done?)

def outcome? (settlement : Settlement) (g : Group) : Option (Except ChannelError (List Bytes)) :=
  match g.fault? settlement true with
  | some e => some (.error e)
  | none => g.messages?.map .ok

def awaits (g : Group) (source : Nat) : Bool :=
  g.any fun (part, stage) =>
    match part with
    | .incoming s => s == source && stage.isFirst
    | .outgoing .. => false

def blocked? (g : Group) (target : Nat) : Option Nat :=
  g.findIdx? fun (part, stage) =>
    match part with
    | .incoming _ => false
    | .outgoing t _ => t == target && stage.isLined

end Group

end AuthShares
