import AuthShares.Error
import AuthShares.Player

/-!
# Programs of one party

A program is a finite tree of the things one party can do on a network. It scatters
messages, one to each given party, gathers one message from each given party, or
draws thirty-two random bytes. Messages of one scatter go out together, and the
sources of one gather are waited for together; a failure ends either, in a small
group as soon as it is seen, in a large one once everything before it is done.
What happens is the business of the network that runs the programs of all parties.
-/

set_option autoImplicit false

namespace AuthShares

inductive Settlement where
  | atOnce
  | inOrder
  deriving DecidableEq, Repr

namespace Settlement

def ofSize (size : Nat) : Settlement := if size ≤ 30 then .atOnce else .inOrder

def ends (settlement : Settlement) (clear : Bool) : Bool :=
  match settlement with
  | .atOnce => true
  | .inOrder => clear

end Settlement

inductive Protocol (α : Type) where
  | done (value : α)
  | draw (next : Bytes32 → Protocol α)
  | scatter (settlement : Settlement) (phase : String) (messages : List (Nat × Bytes))
      (next : Except ChannelError Unit → Protocol α)
  | gather (settlement : Settlement) (phase : String) (sources : List Nat)
      (accept : Bytes → Except ChannelError Unit)
      (next : Except ChannelError (List Bytes) → Protocol α)

namespace Protocol

variable {α β γ : Type}

def bind : Protocol α → (α → Protocol β) → Protocol β
  | done a, f => f a
  | draw next, f => draw fun r => (next r).bind f
  | scatter settlement phase messages next, f =>
    scatter settlement phase messages fun r => (next r).bind f
  | gather settlement phase sources accept next, f =>
    gather settlement phase sources accept fun r => (next r).bind f

instance : Monad Protocol where
  pure := done
  bind := bind

theorem bind_done (p : Protocol α) : p.bind done = p := by
  induction p with
  | done a => rfl
  | draw next ih => simp [bind, ih]
  | scatter settlement phase messages next ih => simp [bind, ih]
  | gather settlement phase sources accept next ih => simp [bind, ih]

theorem bind_bind (p : Protocol α) (f : α → Protocol β) (g : β → Protocol γ) :
    (p.bind f).bind g = p.bind fun a => (f a).bind g := by
  induction p with
  | done a => rfl
  | draw next ih => simp [bind, ih]
  | scatter settlement phase messages next ih => simp [bind, ih]
  | gather settlement phase sources accept next ih => simp [bind, ih]

instance : LawfulMonad Protocol := LawfulMonad.mk' Protocol
  bind_done
  (fun _ _ => rfl)
  bind_bind

inductive Next : Protocol α → Protocol α → Prop where
  | draw (next : Bytes32 → Protocol α) (r : Bytes32) : Next (next r) (.draw next)
  | scatter (settlement : Settlement) (phase : String) (messages : List (Nat × Bytes))
      (next : Except ChannelError Unit → Protocol α) (r : Except ChannelError Unit) :
      Next (next r) (.scatter settlement phase messages next)
  | gather (settlement : Settlement) (phase : String) (sources : List Nat)
      (accept : Bytes → Except ChannelError Unit)
      (next : Except ChannelError (List Bytes) → Protocol α) (r : Except ChannelError (List Bytes)) :
      Next (next r) (.gather settlement phase sources accept next)

theorem next_wellFounded : WellFounded (@Next α) := by
  constructor
  intro p
  induction p with
  | done a => exact ⟨_, fun _ h => nomatch h⟩
  | draw next ih => exact ⟨_, fun _ h => by cases h; exact ih _⟩
  | scatter settlement phase messages next ih => exact ⟨_, fun _ h => by cases h; exact ih _⟩
  | gather settlement phase sources accept next ih => exact ⟨_, fun _ h => by cases h; exact ih _⟩

instance : WellFoundedRelation (Protocol α) := ⟨Next, next_wellFounded⟩

end Protocol

abbrev Link := ExceptT ChannelError Protocol

abbrev Interaction := ExceptT Error Protocol

/-- A program that can fail and changes a state, also when it fails. -/
abbrev Action (σ : Type) := ExceptT Error (StateT σ Protocol)

namespace Link

def scatter (size : Nat) (phase : String) (messages : List (Nat × Bytes)) : Link Unit :=
  Protocol.scatter (.ofSize size) phase messages Protocol.done

def gather {β : Type} (size : Nat) (phase : String) (sources : List Nat)
    (decode : Bytes → Except ChannelError β) : Link (List β) :=
  Protocol.gather (.ofSize size) phase sources (fun bs => (decode bs).map fun _ => ()) fun r =>
    Protocol.done (r.bind fun messages => messages.mapM decode)

def send (party : Nat) (phase : String) (bs : Bytes) : Link Unit := scatter 1 phase [(party, bs)]

def sendAll (player : Player) (phase : String) (bs : Bytes) : Link Unit :=
  scatter player.players phase (player.others.map fun party => (party, bs))

def gatherBytes (phase : String) (sources : List Nat) : Link (List Bytes) :=
  gather sources.length phase sources .ok

def receive (party : Nat) (phase : String) : Link Bytes := do
  let messages ← gatherBytes phase [party]
  return messages.headD []

end Link

namespace Interaction

def ofLink {α : Type} (m : Link α) : Interaction α := ExceptT.adapt Error.channel m

instance : MonadLift Link Interaction := ⟨ofLink⟩

def draw : Interaction Bytes32 := Protocol.draw fun r => .done (.ok r)

end Interaction

namespace Action

variable {σ τ α : Type}

def ofInteraction (m : Interaction α) : Action σ α := fun s => do
  let r ← m
  return (r, s)

instance : MonadLift Interaction (Action σ) := ⟨ofInteraction⟩

instance : MonadLift Link (Action σ) := ⟨fun m => ofInteraction (.ofLink m)⟩

def ofProtocol (p : Protocol α) : Action σ α := fun s => do
  let a ← p
  return (.ok a, s)

def zoom (get : σ → τ) (set : σ → τ → σ) (m : Action τ α) : Action σ α := fun s => do
  let (r, t) ← m (get s)
  return (r, set s t)

def ofReadResult : Except ReadError α → Action σ α
  | .ok a => return a
  | .error e => throw (.malformed e)

end Action

end AuthShares
