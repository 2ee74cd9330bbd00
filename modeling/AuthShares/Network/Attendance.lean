import AuthShares.Network.Group
import AuthShares.Network.Links

/-!
# Looking after groups

At a turn of its party the parts of a group are looked at one by one, and some of them
are settled. A small group is gone through from its beginning at every turn. A large one
is gone through once; after that only those parts are looked at that something calls: a
message or room for one, the clock, or a part that was settled before them.

A wait in line behind another one for the same source has not begun, so it cannot be
overdue. A part that found no transfer left is put off to the next turn; the one put
off last is then looked at first.
-/

set_option autoImplicit false

namespace AuthShares

structure Errand where
  party : Nat
  settlement : Settlement
  phase : String
  accept : Bytes → Except ChannelError Unit

inductive Event where
  | sent (target : Nat) (phase : String) (bs : Bytes)
  | awaited (source : Nat) (phase : String)

/-- The parts of a group that have to be looked at again: the waits in line and those
that found nothing, with their sources and in the order in which they came to that, and
the parts put off, the last first. -/
structure Agenda where
  line : List (Nat × Nat)
  idle : List (Nat × Nat)
  late : List Nat

namespace Agenda

def empty : Agenda := ⟨[], [], []⟩

def next? (a : Agenda) (source : Nat) : Option Nat :=
  (a.line.find? (·.2 == source)).map (·.1)

def insertLast (x : Nat × Nat) (xs : List (Nat × Nat)) : List (Nat × Nat) :=
  if xs.contains x then xs else xs ++ [x]

def note (a : Agenda) (place : Nat × Nat) (spent : Bool) : Stage → Agenda
  | .lined => { a with line := insertLast place a.line }
  | .first _ =>
    { a with
      line := a.line.erase place
      idle := if spent then a.idle else insertLast place a.idle }
  | stage =>
    if stage.isSettled then { a with line := a.line.erase place, idle := a.idle.erase place } else a

def putOff (a : Agenda) (place : Nat) : Agenda := { a with late := place :: a.late }

end Agenda

namespace Links

def dispatch (e : Errand) (l : Links) (target : Nat) (bs : Bytes) (stage : Stage) :
    Links × Stage :=
  match l.offer e.party target bs with
  | .accepted l => (l, .done [])
  | .full => (l, .lined)
  | .late => (l, stage.putOff)
  | .refused fault => (l, .failed (.send e.phase fault))

def await (e : Errand) (l : Links) (source since : Nat) : Links × Stage :=
  if l.isSpent then
    (l, .first since)
  else if l.service = .shared ∧ since < l.clock then
    (l.spend, .failed (.receive e.phase .timeoutElapsed))
  else
    match l.take e.party source with
    | .message bs l =>
      match e.accept bs with
      | .ok () => (l.spend, .done bs)
      | .error fault => (l.spend, .failed fault)
    | .refused fault => (l.spend, .failed (.receive e.phase fault))
    | .nothing =>
      if since < l.clock then (l.spend, .failed (.receive e.phase .timeoutElapsed))
      else (l, .first since)

/-- What a wait comes to. `behind` says that another one for its source is before it. -/
def attend (e : Errand) (l : Links) (source : Nat) (behind : Bool) : Stage → Links × Stage
  | .first since => l.await e source since
  | stage =>
    if !l.connected e.party source then (l, .failed (.receive e.phase (.noSuchParty source)))
    else if l.isSpent then (l, stage.putOff)
    else if behind then (l, .lined)
    else l.spend.await e source l.clock

end Links

structure Attendance where
  links : Links
  group : Group
  agenda : Agenda
  events : List Event

namespace Attendance

def isBehind (a : Attendance) (place source : Nat) : Bool :=
  match a.links.service with
  | .shared => false
  | .inLine =>
    a.group.awaits source ||
      match a.agenda.next? source with
      | some other => other != place
      | none => false

def record (a : Attendance) (place : Nat) (part : Part) (stage : Stage) (links : Links)
    (events : List Event) : Attendance :=
  let agenda :=
    match part with
    | .incoming source => a.agenda.note (place, source) links.isSpent stage
    | .outgoing .. => a.agenda
  { links
    group := a.group.set place (part, stage)
    agenda := if !stage.isSettled && links.isSpent then agenda.putOff place else agenda
    events := events ++ a.events }

def look (e : Errand) (a : Attendance) (place : Nat) : Attendance × Bool :=
  match a.group[place]? with
  | none => (a, false)
  | some (part, stage) =>
    if stage.isSettled then
      (a, false)
    else
      match part with
      | .outgoing target bs =>
        let (links, after) := a.links.dispatch e target bs stage
        let seen := stage.isFresh && links.connected e.party target
        (a.record place part after links (if seen then [.sent target e.phase bs] else []),
          after.isSettled)
      | .incoming source =>
        let (links, after) := a.links.attend e source (a.isBehind place source) stage
        let seen := stage.isFresh && links.connected e.party source
        (a.record place part after links (if seen then [.awaited source e.phase] else []),
          after.isSettled)

def lookAround (e : Errand) : List Nat → Attendance → Attendance × Option (Nat × List Nat)
  | [], a => (a, none)
  | place :: calls, a =>
    match a.look e place with
    | (a, true) => (a, some (place, calls))
    | (a, false) => lookAround e calls a

/-- The places that a part calls when it is settled: the next wait in line for its
source, or on shared connections all waits that found nothing, if a message came. -/
def callAfter (a : Attendance) (place : Nat) : Attendance × List Nat :=
  match a.links.service, a.group[place]? with
  | .shared, some (_, stage) =>
    if stage.isHeard then
      ({ a with agenda := { a.agenda with idle := [] } }, a.agenda.idle.map (·.1))
    else
      (a, [])
  | .inLine, some (.incoming source, _) => (a, (a.agenda.next? source).toList)
  | _, _ => (a, [])

/-- Looks at the parts at some places, and at those that are called meanwhile, until the
group is over. At most `n` parts get settled. -/
def serve (e : Errand) : (n : Nat) → List Nat → Attendance → Attendance
  | 0, _, a => a
  | n + 1, calls, a =>
    match a.lookAround e calls with
    | (a, none) => a
    | (a, some (place, calls)) =>
      if (a.group.outcome? e.settlement).isSome then
        a
      else
        match e.settlement with
        | .atOnce => serve e n calls a
        | .inOrder =>
          let (a, called) := a.callAfter place
          serve e n (calls ++ called.filter (!calls.contains ·)) a

def heed : List Notice → Attendance → Attendance × List Nat
  | [], a => (a, [])
  | .mail source :: notices, a =>
    match a.agenda.idle.find? (·.2 == source) with
    | none => heed notices a
    | some wait =>
      let idle := a.agenda.idle.erase wait
      let (a, calls) := heed notices { a with agenda := { a.agenda with idle } }
      (a, wait.1 :: calls)
  | .room target :: notices, a =>
    match a.group.blocked? target with
    | none => heed notices a
    | some place =>
      let (a, calls) := heed notices a
      (a, place :: calls)

def overdue (a : Attendance) : List Nat :=
  (a.agenda.idle.map (·.1)).filter fun place =>
    match a.group[place]? with
    | some (_, stage) => stage.isOverdue a.links.clock
    | none => false

def calls (e : Errand) (a : Attendance) : Attendance × List Nat :=
  let late := a.agenda.late
  let idle := a.agenda.idle
  match e.settlement, a.links.service with
  | .atOnce, _ => ({ a with agenda := { a.agenda with late := [] } }, a.group.unsettled 0)
  | .inOrder, .shared => ({ a with agenda := { a.agenda with idle := [] } }, idle.map (·.1))
  | .inOrder, .inLine =>
    let (earlier, recent) := a.links.notices e.party
    let a := { a with
      links := a.links.dropNotices e.party
      agenda := { a.agenda with late := [] } }
    let (a, before) := a.heed earlier
    let overdue := a.overdue
    let (a, after) := a.heed recent
    (a, (before ++ late ++ overdue ++ after).eraseDups)

end Attendance

namespace Group

def start (e : Errand) (links : Links) (g : Group) : Attendance :=
  .serve e g.length (List.range g.length) ⟨links.dropNotices e.party, g, .empty, []⟩

def resume (e : Errand) (links : Links) (agenda : Agenda) (g : Group) : Attendance :=
  let (a, calls) := Attendance.calls e ⟨links, g, agenda, []⟩
  a.serve e (g.unsettled 0).length calls

end Group

end AuthShares
