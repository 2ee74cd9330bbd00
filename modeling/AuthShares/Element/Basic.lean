import AuthShares.Bytes.Buffer
import AuthShares.Random.Generator

/-!
# Elements that can be shared

Aggregation adds elements and sends them in a declared number of bytes. The check of
message authentication codes also multiplies and draws random elements. Over a ring
whose openings show only the low half, elements can be shifted up and cut down.
-/

set_option autoImplicit false

namespace AuthShares

/-- Elements that can be added and written in `size` bytes, some byte strings being refused. -/
class Element (T : Type) extends Zero T, Add T where
  size : Nat
  toBytes : T → Bytes
  ofBytes : Bytes → T
  isCanonical : T → Bool

class MacElement (T : Type) extends Element T, Sub T, Neg T, Mul T where
  isZero : T → Bool
  random : StateM Generator T

class RingElement (T : Type) extends MacElement T where
  visibleBytes : Nat
  shift : T → T
  low : T → T
  challenge : StateM Generator T

def declaredLength (size : Nat) : Option Nat → Except ReadError Nat
  | none => .ok size
  | some declared => if declared ≤ size then .ok declared else .error (.lengthTooLarge declared size)

namespace Element

variable {T : Type} [Element T]

def packed (len : Option Nat) (x : T) : Bytes :=
  match len with
  | none => toBytes x
  | some n => (toBytes x).take n

def pack (len : Option Nat) (x : T) (b : Buffer) : Buffer := b.append (packed len x)

/-- Reads an element of the declared length. A refused element has been taken. -/
def unpack (len : Option Nat) : Reader T := do
  let n ← liftExcept (declaredLength (size T) len)
  let x := ofBytes (← Buffer.consume n)
  if isCanonical x then return x else throw .nonCanonical
where
  liftExcept {α : Type} : Except ReadError α → Reader α
    | .ok a => return a
    | .error e => throw e

def addFrom (len : Option Nat) (x : T) : Reader T := do
  let y ← unpack len
  return x + y

def total (xs : List T) : T := xs.foldl (· + ·) 0

end Element

namespace MacElement

variable {T : Type} [MacElement T]

def product : List T → T
  | [] => 0
  | x :: xs => xs.foldl (· * ·) x

def difference : List T → T
  | [] => 0
  | x :: xs => xs.foldl (· - ·) x

def polynomial (coefficients : List T) (x : T) : T :=
  coefficients.foldl (fun acc c => acc * x + c) 0

end MacElement

end AuthShares
