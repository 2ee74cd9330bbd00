import AuthShares.Proofs.Commitment

/-!
# Sequences of openings and coin tosses

All parties open values to each other and toss coins in the same order, call after call. They
need not be in the same call at the same moment. The coins of one toss come of the bitwise sum
of what all parties contribute to it; so a party whose contribution is uniform makes the sum
uniform, whatever the others contribute.
-/

set_option autoImplicit false

namespace AuthShares

open Interaction

theorem getElem_addBits (a b : Bytes32) (j : Nat) (hj : j < 32) :
    (addBits a b)[j] = a[j] ^^^ b[j] := Vector.getElem_zipWith hj

theorem addBits_assoc (a b c : Bytes32) :
    addBits (addBits a b) c = addBits a (addBits b c) :=
  Vector.ext fun j hj => by simp only [getElem_addBits, UInt8.xor_assoc]

theorem addBits_comm (a b : Bytes32) : addBits a b = addBits b a :=
  Vector.ext fun j hj => by simp only [getElem_addBits, UInt8.xor_comm]

theorem addBits_zero (a : Bytes32) : addBits a zeroBytes = a :=
  Vector.ext fun j hj => by simp [getElem_addBits, zeroBytes]

theorem addBits_addBits (x a : Bytes32) : addBits (addBits x a) a = x :=
  Vector.ext fun j hj => by
    rw [getElem_addBits, getElem_addBits, UInt8.xor_assoc, UInt8.xor_self, UInt8.xor_zero]

instance : Std.Associative addBits := ⟨addBits_assoc⟩

theorem addBits_bijective (a : Bytes32) : Function.Bijective fun x => addBits x a :=
  Function.Involutive.bijective fun x => addBits_addBits x a

variable {n : Nat}

def sharedSeed (contribution : Fin n → Bytes32) : Bytes32 :=
  (List.ofFn contribution).foldl addBits zeroBytes

theorem getElem_foldl_addBits (xs : List Bytes32) (a : Bytes32) (j : Nat) (hj : j < 32) :
    (xs.foldl addBits a)[j] = (xs.map fun x => x[j]).foldl (· ^^^ ·) a[j] := by
  induction xs generalizing a with
  | nil => rfl
  | cons x xs ih => rw [List.foldl_cons, ih, getElem_addBits, List.map_cons, List.foldl_cons]

theorem getElem_sharedSeed (contribution : Fin n → Bytes32) (j : Nat) (hj : j < 32) :
    (sharedSeed contribution)[j] =
      (List.ofFn fun i => (contribution i)[j]).foldl (· ^^^ ·) 0 := by
  have hzero : zeroBytes[j] = 0 := by simp [zeroBytes]
  rw [sharedSeed, getElem_foldl_addBits, hzero, List.map_ofFn]
  rfl

/-- All contributions but one make up what is added to that one. -/
theorem exists_sharedSeed_update (contribution : Fin n → Bytes32) (i : Fin n) :
    ∃ rest, ∀ x, sharedSeed (Function.update contribution i x) = addBits x rest := by
  let xs := List.ofFn contribution
  let before := (xs.take i).foldl addBits zeroBytes
  let after := (xs.drop (i + 1)).foldl addBits zeroBytes
  refine ⟨addBits before after, fun x => ?_⟩
  have hset : List.ofFn (Function.update contribution i x) =
      xs.take i ++ x :: xs.drop (i + 1) := by
    have hi : i.val < xs.length := by simp [xs]
    have hput := List.set_eq_take_append_cons_drop (l := xs) (i := i) (a := x)
    rw [if_pos hi] at hput
    rw [← hput]
    refine List.ext_getElem (by simp [xs]) fun k hk hk' => ?_
    simp [xs, List.getElem_set, Function.update_apply, Fin.ext_iff, eq_comm]
  have hafter : (xs.drop (i + 1)).foldl addBits (addBits before x) =
      addBits (addBits before x) after := by
    rw [← addBits_zero (addBits before x), List.foldl_assoc, addBits_zero]
  calc sharedSeed (Function.update contribution i x)
      = (xs.drop (i + 1)).foldl addBits (addBits before x) := by
        rw [sharedSeed, hset, List.foldl_append, List.foldl_cons]
    _ = addBits (addBits before x) after := hafter
    _ = addBits x (addBits before after) := by rw [addBits_comm before x, addBits_assoc]

theorem sharedSeed_bijective (contribution : Fin n → Bytes32) (i : Fin n) :
    Function.Bijective fun x => sharedSeed (Function.update contribution i x) := by
  obtain ⟨rest, hrest⟩ := exists_sharedSeed_update contribution i
  simp only [hrest]
  exact addBits_bijective rest

variable {ι : Type} {V : ι → Type} [∀ k, Wire (V k)]

inductive Request (V : ι → Type) where
  | opening (phase : String) (kind : ι) (value : V kind)
  | coins

inductive Reply (V : ι → Type) where
  | values (kind : ι) (all : List (V kind))
  | generator (g : Generator)

def Request.run (player : Player) : Request V → Protocol (Except Error (Reply V))
  | .opening phase kind value => do
    let r ← (commitThenOpen player phase value).run
    return r.map (.values kind)
  | .coins => do
    let r ← (tossCoins player).run
    return r.map .generator

def requestAll (player : Player) : List (Request V) → Protocol (List (Except Error (Reply V)))
  | [] => return []
  | request :: rest => do
    let r ← request.run player
    let rs ← requestAll player rest
    return r :: rs

inductive JointCall (V : ι → Type) (n : Nat) where
  | opening (phase : String) (kind : ι) (value : Fin n → V kind)
  | coins

namespace JointCall

def request (i : Fin n) : JointCall V n → Request V
  | .opening phase kind value => .opening phase kind (value i)
  | .coins => .coins

def reply (t : Fin n → Tape) : JointCall V n → Reply V
  | .opening _ kind value => .values kind (List.ofFn value)
  | .coins => .generator (.ofKey (sharedSeed fun i => t i 0))

def leaves (t : Fin n → Tape) : JointCall V n → Fin n → Tape
  | .opening .. => fun i => (t i).tail
  | .coins => fun i => (t i).tail.tail

end JointCall

def replies : List (JointCall V n) → (Fin n → Tape) → List (Except Error (Reply V))
  | [], _ => []
  | call :: rest, t => .ok (call.reply t) :: replies rest (call.leaves t)

def leftover : List (JointCall V n) → (Fin n → Tape) → Fin n → Tape
  | [], t => t
  | call :: rest, t => leftover rest (call.leaves t)

variable {capacity : Option Nat} [∀ k, LawfulWire (V k)]

theorem JointCall.run_together (hcap : capacity ≠ some 0) (hn : n < wordRange)
    (call : JointCall V n) (t : Fin n → Tape) :
    World.Together capacity (fun i => (call.request i).run (Player.numbered i)) t
      (fun _ => .ok (call.reply t)) (call.leaves t) := by
  cases call with
  | opening phase kind value =>
    exact (commitThenOpen_together hcap hn phase value t).bind (World.Together.pure _ _)
  | coins => exact (tossCoins_together hcap hn t).bind (World.Together.pure _ _)

theorem requestAll_together (hcap : capacity ≠ some 0) (hn : n < wordRange)
    (calls : List (JointCall V n)) (t : Fin n → Tape) :
    World.Together capacity
      (fun i => requestAll (Player.numbered i) (calls.map (·.request i))) t
      (fun _ => replies calls t) (leftover calls t) := by
  induction calls generalizing t with
  | nil => exact World.Together.pure _ t
  | cons call calls ih =>
    exact (call.run_together hcap hn t).bind ((ih _).bind (World.Together.pure _ _))

/-- In whatever order the parties move and whatever they draw, all calls succeed, with the values
of all parties, or with the coins that come of the bitwise sum of what all have contributed, and
no message is left. With the other contributions given, the sum is as arbitrary as any one of
them. -/
theorem requestAll_endsIn (hcap : capacity ≠ some 0) (hn : n < wordRange)
    (calls : List (JointCall V n)) (t : Fin n → Tape) :
    World.EndsIn capacity
      (World.start (fun i => requestAll (Player.numbered i) (calls.map (·.request i))) t .empty)
      (World.start (fun _ => .done (replies calls t)) (leftover calls t) .empty) ∧
    ∀ contribution : Fin n → Bytes32,
      (∀ (j : Nat) (hj : j < 32), (sharedSeed contribution)[j] =
        (List.ofFn fun i => (contribution i)[j]).foldl (· ^^^ ·) 0) ∧
      ∀ i, Function.Bijective fun x => sharedSeed (Function.update contribution i x) :=
  ⟨(requestAll_together hcap hn calls t).endsIn, fun contribution =>
    ⟨getElem_sharedSeed contribution, sharedSeed_bijective contribution⟩⟩

/-- Three parties open their numbers and toss coins; they contribute ones, threes and fives. -/
theorem requestAll_endsIn_three :
    World.EndsIn none
      (World.start (fun i : Fin 3 => requestAll (V := fun _ : Unit => Mersenne61)
        (Player.numbered i) [.opening "key" () ⟨UInt64.ofNat i⟩, .coins])
        (fun i _ => Vector.replicate 32 (UInt8.ofNat (2 * i + 1))) .empty)
      (World.start (fun _ => .done [.ok (.values () [⟨0⟩, ⟨1⟩, ⟨2⟩]),
        .ok (.generator (.ofKey (Vector.replicate 32 7)))])
        (fun i _ => Vector.replicate 32 (UInt8.ofNat (2 * i + 1))) .empty) := by
  have hcap : (none : Option Nat) ≠ some 0 := by simp
  let calls : List (JointCall (fun _ : Unit => Mersenne61) 3) :=
    [.opening "key" () fun i => ⟨UInt64.ofNat i⟩, .coins]
  let tape : Fin 3 → Tape := fun i _ => Vector.replicate 32 (UInt8.ofNat (2 * i + 1))
  have hseed : (sharedSeed fun i => (tape i).tail 0) = Vector.replicate 32 7 := by decide +kernel
  have hreplies : replies calls tape = [.ok (.values () [⟨0⟩, ⟨1⟩, ⟨2⟩]),
      .ok (.generator (.ofKey (Vector.replicate 32 7)))] := by
    rw [← hseed]
    rfl
  have h := (requestAll_endsIn hcap (by decide) calls tape).1
  rw [hreplies] at h
  exact h

end AuthShares
