import AuthShares.Element.Basic

/-!
# Aggregation messages

A message holds values one after another, each in its declared number of bytes, and a
terminator. The receiver knows how many values to expect. It adds them to its own or
puts them in their place, and stops at the first that cannot be read; the ones before
it have then been taken over.
-/

set_option autoImplicit false

namespace AuthShares

inductive Combine where
  | add
  | replace
  deriving DecidableEq, Repr

namespace Message

variable {T : Type} [Element T]

/-- The values with their declared lengths; those past the end of the list are full. -/
def fields : List (Option Nat) → List T → Bytes
  | _, [] => []
  | lengths, x :: xs => Element.packed (lengths.headD none) x ++ fields lengths.tail xs

def encode (lengths : List (Option Nat)) (xs : List T) : Bytes :=
  fields lengths xs ++ [Buffer.terminator]

def encodeRange (lengths : List (Option Nat)) (start stop : Nat) (xs : List T) : Bytes :=
  encode (lengths.drop start) ((xs.drop start).take (stop - start))

def readOne (combine : Combine) (len : Option Nat) (x : T) : Reader T :=
  match combine with
  | .add => Element.addFrom len x
  | .replace => Element.unpack len

def absorb (combine : Combine) :
    List (Option Nat) → List T → Buffer → Except ReadError Unit × List T
  | _, [], b => (((do Buffer.expectTerminator; Buffer.expectEnd).run b).1, [])
  | lengths, x :: xs, b =>
    match (readOne combine (lengths.headD none) x).run b with
    | (.ok y, b) =>
      let (r, ys) := absorb combine lengths.tail xs b
      (r, y :: ys)
    | (.error e, _) => (.error e, x :: xs)

def absorbRange (combine : Combine) (lengths : List (Option Nat)) (start stop : Nat)
    (xs : List T) (message : Bytes) : Except ReadError Unit × List T :=
  let (r, ys) := absorb combine (lengths.drop start) ((xs.drop start).take (stop - start))
    (.ofBytes message)
  (r, xs.take start ++ ys ++ xs.drop (start + ys.length))

end Message

end AuthShares
