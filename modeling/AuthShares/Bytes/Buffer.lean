import AuthShares.Bytes.LittleEndian

/-!
# Byte buffers

Bytes are written at the end and read from a moving head. A message is closed by
one terminator byte, which the reader checks before it checks that nothing follows.
A read that asks for more than is left takes nothing. Room can be made beforehand, for
less than half of `wordRange` bytes.
-/

set_option autoImplicit false

namespace AuthShares

def hasRoom (count size : Nat) : Bool := count * size ≤ 9223372036854775807

inductive ReadError where
  | truncated (needed available : Nat)
  | missingTerminator
  | trailingBytes (count : Nat)
  | nonCanonical
  | lengthTooLarge (declared size : Nat)
  deriving DecidableEq, Repr

def ReadError.message : ReadError → String
  | .truncated needed available =>
    s!"buffer too short: needed {needed} bytes, {available} available"
  | .missingTerminator => "message is not properly terminated"
  | .trailingBytes count => s!"{count} trailing bytes after the end of the message"
  | .nonCanonical => "bytes do not encode a canonical value"
  | .lengthTooLarge declared size =>
    s!"declared length {declared} exceeds the value size {size}"

structure Buffer where
  data : Array UInt8
  head : Nat
  deriving DecidableEq

/-- A read moves the head of a buffer, also when it fails after taking bytes. -/
abbrev Reader := ExceptT ReadError (StateM Buffer)

namespace Buffer

def terminator : UInt8 := 0

def empty : Buffer := ⟨#[], 0⟩

def withRoom? (n : Nat) : Option Buffer := if hasRoom n 1 then some empty else none

/-- The room there is once `needed` bytes are written: it at least doubles when it runs
out, and is never less than eight bytes then. -/
def roomFor (room needed : Nat) : Nat :=
  if needed ≤ room then room else max needed (max (2 * room) 8)

def ofBytes (bs : Bytes) : Buffer := ⟨bs.toArray, 0⟩

def toBytes (b : Buffer) : Bytes := b.data.toList

def size (b : Buffer) : Nat := b.data.size

def isEmpty (b : Buffer) : Bool := b.data.isEmpty

def remaining (b : Buffer) : Nat := b.data.size - b.head

def rewind (b : Buffer) : Buffer := { b with head := 0 }

def append (b : Buffer) (bs : Bytes) : Buffer := { b with data := b.data.appendList bs }

def close (b : Buffer) : Buffer := b.append [terminator]

/-- Takes the next `n` bytes, or none of them if fewer are left. -/
def consume (n : Nat) : Reader Bytes := do
  let b ← getThe Buffer
  if n ≤ b.remaining then
    set { b with head := b.head + n }
    return (b.data.extract b.head (b.head + n)).toList
  else
    throw (.truncated n b.remaining)

def expectTerminator : Reader Unit := do
  let b ← getThe Buffer
  if b.remaining = 0 then
    throw .missingTerminator
  else
    let next ← consume 1
    if next = [terminator] then return () else throw .missingTerminator

def expectEnd : Reader Unit := do
  let b ← getThe Buffer
  if b.remaining = 0 then return () else throw (.trailingBytes b.remaining)

end Buffer

end AuthShares
