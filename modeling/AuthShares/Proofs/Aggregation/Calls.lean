import AuthShares.Proofs.Aggregation.Sums
import AuthShares.Proofs.Element.Mersenne61
import AuthShares.Proofs.Element.Ring128

/-!
# Sequences of sums

All players make the same calls one after the other, each of field or of ring elements.
They need not be in the same call at the same moment: a player goes on with its next call
as soon as its own part in the one before is over.
-/

set_option autoImplicit false

namespace AuthShares

inductive Argument where
  | field (values : List Mersenne61)
  | ring (values : List Ring128)
  deriving DecidableEq

def Argument.sum (player : Player) :
    Argument → StateT Aggregator Protocol (Except Error Argument)
  | .field values => do
    let r ← (Aggregator.sum player [] values).run
    return r.map .field
  | .ring values => do
    let r ← (Aggregator.sum player [] values).run
    return r.map .ring

def sumAll (player : Player) :
    List Argument → StateT Aggregator Protocol (List (Except Error Argument))
  | [] => return []
  | argument :: rest => do
    let r ← argument.sum player
    let rs ← sumAll player rest
    return r :: rs

structure Batch (T : Type) [Element T] (n : Nat) where
  size : Nat
  values : Fin n → List T
  length (i : Fin n) : (values i).length = size
  canonical (i : Fin n) : ∀ y ∈ values i, Element.isCanonical y

inductive Call (n : Nat) where
  | field (batch : Batch Mersenne61 n)
  | ring (batch : Batch Ring128 n)

namespace Call

variable {n : Nat}

def argument (i : Fin n) : Call n → Argument
  | .field batch => .field (batch.values i)
  | .ring batch => .ring (batch.values i)

def sums : Call n → Argument
  | .field batch => .field (columnSums batch.size batch.values)
  | .ring batch => .ring (columnSums batch.size batch.values)

end Call

variable {n : Nat} {capacity : Option Nat}

namespace Batch

variable {T : Type} [MacElement T] [Modular T]

theorem sum_together (hcap : capacity ≠ some 0) (hpos : 0 < n) (hn : 2 * n < wordRange)
    (a : Aggregator) (batch : Batch T n) (packed : Fin n → Bytes) (t : Fin n → Tape) :
    ∃ packed' : Fin n → Bytes, World.Together capacity
      (fun i => ((Aggregator.sum (Player.numbered i) [] (batch.values i)).run.run
        { a with packed := packed i } : Protocol (Except Error (List T) × Aggregator))) t
      (fun i => (.ok (columnSums batch.size batch.values), { a with packed := packed' i })) t := by
  obtain ⟨v, packed', htog, hv⟩ := Aggregator.sum_together hcap hpos hn a
    (faithful_used (fun _ h => absurd h List.not_mem_nil) batch.size _) batch.length
    batch.canonical packed t
  simp only [fun i => eq_columnSums (hv i)] at htog
  exact ⟨packed', htog⟩

end Batch

theorem Call.sum_together (hcap : capacity ≠ some 0) (hpos : 0 < n) (hn : 2 * n < wordRange)
    (a : Aggregator) (call : Call n) (packed : Fin n → Bytes) (t : Fin n → Tape) :
    ∃ packed' : Fin n → Bytes, World.Together capacity
      (fun i => ((call.argument i).sum (Player.numbered i)).run { a with packed := packed i }) t
      (fun i => (.ok call.sums, { a with packed := packed' i })) t := by
  cases call with
  | field batch =>
    obtain ⟨packed', h⟩ := batch.sum_together hcap hpos hn a packed t
    exact ⟨packed', h.bind (World.Together.pure _ t)⟩
  | ring batch =>
    obtain ⟨packed', h⟩ := batch.sum_together hcap hpos hn a packed t
    exact ⟨packed', h.bind (World.Together.pure _ t)⟩

theorem sumAll_together (hcap : capacity ≠ some 0) (hpos : 0 < n) (hn : 2 * n < wordRange)
    (a : Aggregator) (calls : List (Call n)) (packed : Fin n → Bytes) (t : Fin n → Tape) :
    ∃ packed' : Fin n → Bytes, World.Together capacity
      (fun i => (sumAll (Player.numbered i) (calls.map (·.argument i))).run
        { a with packed := packed i }) t
      (fun i => (calls.map fun call => .ok call.sums, { a with packed := packed' i })) t := by
  induction calls generalizing packed with
  | nil => exact ⟨packed, World.Together.pure _ t⟩
  | cons call calls ih =>
    obtain ⟨packed', h⟩ := call.sum_together hcap hpos hn a packed t
    obtain ⟨packed'', h'⟩ := ih packed'
    exact ⟨packed'', h.bind (h'.bind (World.Together.pure _ t))⟩

/-- In whatever order the players move, all calls of all players end, with the sums over all
players, and no message is left. -/
theorem sumAll_endsIn (c : Config) (hpos : 0 < n) (hn : n < 2 ^ 62) (calls : List (Call n))
    (t : Fin n → Tape) :
    ∃ packed : Fin n → Bytes, World.EndsIn none
      (World.start (fun i => (sumAll (Player.numbered i) (calls.map (·.argument i))).run
        (.ofConfig c)) t .empty)
      (World.start (fun i => .done (calls.map fun call => .ok call.sums,
        { Aggregator.ofConfig c with packed := packed i })) t .empty) := by
  have hwords : 2 * n < wordRange := by
    unfold wordRange
    omega
  have hcap : (none : Option Nat) ≠ some 0 := by simp
  obtain ⟨packed, h⟩ := sumAll_together hcap hpos hwords (Aggregator.ofConfig c) calls
    (fun _ => []) t
  exact ⟨packed, h.endsIn⟩

theorem sumAll_endsIn_two : 0 < 2 ∧ 2 < 2 ^ 62 ∧ ∃ packed : Fin 2 → Bytes, World.EndsIn none
    (World.start (fun i => (sumAll (Player.numbered i)
      [.field [⟨if i = 0 then 3 else 2305843009213693950⟩], .ring [⟨5⟩, ⟨6⟩]]).run
        (.ofConfig .default)) (fun _ _ => Vector.replicate 32 0) .empty)
    (World.start (fun i => .done ([.ok (.field [⟨2⟩]), .ok (.ring [⟨10⟩, ⟨12⟩])],
      { Aggregator.ofConfig .default with packed := packed i }))
      (fun _ _ => Vector.replicate 32 0) .empty) := by
  refine ⟨by decide, by decide, ?_⟩
  have h := sumAll_endsIn .default (n := 2) (by decide) (by decide)
    [.field ⟨1, fun i => [⟨if i = 0 then 3 else 2305843009213693950⟩], fun _ => rfl, by decide⟩,
      .ring ⟨2, fun _ => [⟨5⟩, ⟨6⟩], fun _ => rfl, fun _ _ _ => rfl⟩]
    (fun _ _ => Vector.replicate 32 0)
  exact h

end AuthShares
