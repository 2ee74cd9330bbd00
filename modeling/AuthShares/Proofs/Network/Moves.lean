import AuthShares.Network.Group
import Mathlib.Data.List.Nodup
import Mathlib.Logic.Function.Basic

/-!
# Parties that move in any order

A party is what is left of its program, how far the parts of its current action have
come, and the random bytes it is going to draw. Between each two of `n` parties the
messages under way wait in a queue, which may be bounded. A move settles one part of an
action of one party, or takes one party on to its next action. Which party moves, and
which part of its action, is open: a run is any sequence of moves.
-/

set_option autoImplicit false

namespace AuthShares

variable {n : Nat} {α : Type}

/-- The random bytes a party is going to draw. -/
abbrev Tape := Nat → Bytes32

def Tape.tail (t : Tape) : Tape := fun k => t (k + 1)

abbrev Queues (n : Nat) := Fin n → Fin n → List Bytes

namespace Queues

def empty : Queues n := fun _ _ => []

def push (q : Queues n) (source target : Fin n) (bs : Bytes) : Queues n :=
  fun s t => if s = source ∧ t = target then q s t ++ [bs] else q s t

def pop (q : Queues n) (source target : Fin n) : Queues n :=
  fun s t => if s = source ∧ t = target then (q s t).tail else q s t

end Queues

def hasPlace (capacity : Option Nat) (queue : List Bytes) : Bool :=
  match capacity with
  | none => true
  | some most => queue.length < most

def Part.peer : Part → Nat
  | .outgoing target _ => target
  | .incoming source => source

@[simp] theorem Part.peer_outgoing (target : Nat) (bs : Bytes) :
    (Part.outgoing target bs).peer = target := rfl

@[simp] theorem Part.peer_incoming (source : Nat) : (Part.incoming source).peer = source := rfl

namespace Protocol

def parts : Protocol α → Group
  | .scatter _ _ messages _ => .ofMessages messages
  | .gather _ _ sources _ _ => .ofSources sources
  | _ => []

def phase : Protocol α → String
  | .scatter _ phase _ _ => phase
  | .gather _ phase _ _ _ => phase
  | _ => ""

def accept : Protocol α → Bytes → Except ChannelError Unit
  | .gather _ _ _ accept _ => accept
  | _ => fun _ => .ok ()

end Protocol

structure Runner (α : Type) where
  program : Protocol α
  group : Group
  tape : Tape

namespace Runner

def start (p : Protocol α) (t : Tape) : Runner α := ⟨p, p.parts, t⟩

def next? (r : Runner α) : Option (Runner α) :=
  match r.program with
  | .done _ => none
  | .draw next => some (start (next (r.tape 0)) r.tape.tail)
  | .scatter settlement _ _ next =>
    (r.group.outcome? settlement).map fun result =>
      start (next (result.map fun _ => ())) r.tape
  | .gather settlement _ _ _ next =>
    (r.group.outcome? settlement).map fun result => start (next result) r.tape

end Runner

def Stage.ofMessage (accept : Bytes → Except ChannelError Unit) (bs : Bytes) : Stage :=
  match accept bs with
  | .ok () => .done bs
  | .error e => .failed e

def settlePart (capacity : Option Nat) (me : Fin n) (phase : String)
    (accept : Bytes → Except ChannelError Unit) (q : Queues n) :
    Part → Option (Stage × Queues n)
  | .outgoing target bs =>
    if h : target < n ∧ target ≠ me then
      if hasPlace capacity (q me ⟨target, h.1⟩) then
        some (.done [], q.push me ⟨target, h.1⟩ bs)
      else
        none
    else
      some (.failed (.send phase (.noSuchParty target)), q)
  | .incoming source =>
    if h : source < n ∧ source ≠ me then
      match q ⟨source, h.1⟩ me with
      | [] => none
      | bs :: _ =>
        some (.ofMessage accept bs, q.pop ⟨source, h.1⟩ me)
    else
      some (.failed (.receive phase (.noSuchParty source)), q)

inductive Move where
  | goOn
  | settle (place : Nat)
  deriving DecidableEq

def Runner.move (capacity : Option Nat) (me : Fin n) (q : Queues n) (r : Runner α) :
    Move → Option (Runner α × Queues n)
  | .goOn => r.next?.map fun r => (r, q)
  | .settle place =>
    match r.next?, r.group[place]? with
    | none, some (part, .fresh) =>
      (settlePart capacity me r.program.phase r.program.accept q part).map fun (stage, q) =>
        ({ r with group := r.group.set place (part, stage) }, q)
    | _, _ => none

structure World (n : Nat) (α : Type) where
  runners : Fin n → Runner α
  queues : Queues n

namespace World

def start (p : Fin n → Protocol α) (t : Fin n → Tape) (q : Queues n) : World n α :=
  ⟨fun i => .start (p i) (t i), q⟩

def move (capacity : Option Nat) (w : World n α) (i : Fin n) (m : Move) : Option (World n α) :=
  ((w.runners i).move capacity i w.queues m).map fun (r, q) =>
    ⟨Function.update w.runners i r, q⟩

def Step (capacity : Option Nat) (w v : World n α) : Prop :=
  ∃ i m, w.move capacity i m = some v

inductive Run (capacity : Option Nat) : Nat → World n α → World n α → Prop where
  | nil (w : World n α) : Run capacity 0 w w
  | snoc {k : Nat} {w u v : World n α} (h : Run capacity k w u) (hs : Step capacity u v) :
      Run capacity (k + 1) w v

theorem Run.cons {capacity : Option Nat} {k : Nat} {w u v : World n α}
    (hs : Step capacity w u) (h : Run capacity k u v) : Run capacity (k + 1) w v := by
  induction h with
  | nil u => exact .snoc (.nil w) hs
  | snoc _ hs' ih => exact .snoc (ih hs) hs'

def Still (capacity : Option Nat) (w : World n α) : Prop := ¬ ∃ v, Step capacity w v

/-- Every run from `w` comes to an end in `v`: none goes on forever, and where nobody can
move the world is `v`. -/
def EndsIn (capacity : Option Nat) (w v : World n α) : Prop :=
  ∃ bound, ∀ k u, Run capacity k w u → k ≤ bound ∧ (Still capacity u → u = v)

end World

end AuthShares
