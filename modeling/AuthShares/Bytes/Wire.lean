import AuthShares.Element.Mersenne61
import AuthShares.Element.Ring128

/-!
# The wire format of typed messages

Numbers have a fixed width and tuples are their fields. A list or a text is preceded
by its length as a 64-bit number. Reading takes what it needs from the front and
leaves the rest; a message is read by ignoring what is left.
-/

set_option autoImplicit false

namespace AuthShares

class Wire (α : Type) where
  encode : α → Bytes
  /-- Reads a value off the front, or fails if bytes are missing or wrong. -/
  decode : Bytes → Option (α × Bytes)

namespace Wire

def split (n : Nat) (bs : Bytes) : Option (Bytes × Bytes) :=
  if (bs.take n).length = n then some (bs.take n, bs.drop n) else none

theorem split_append (xs rest : Bytes) : split xs.length (xs ++ rest) = some (xs, rest) := by
  simp [split]

def decodeNat (width : Nat) (bs : Bytes) : Option (Nat × Bytes) :=
  (split width bs).map fun (front, rest) => (ofLittleEndian front, rest)

def decodeMany {α : Type} [Wire α] : Nat → Bytes → Option (List α × Bytes)
  | 0, bs => some ([], bs)
  | n + 1, bs => do
    let (x, bs) ← decode bs
    let (xs, bs) ← decodeMany n bs
    return (x :: xs, bs)

instance : Wire UInt8 where
  encode x := [x]
  decode
    | [] => none
    | x :: rest => some (x, rest)

instance : Wire UInt64 where
  encode x := toLittleEndian 8 x.toNat
  decode bs := (decodeNat 8 bs).map fun (n, rest) => (UInt64.ofNat n, rest)

instance : Wire Bytes32 where
  encode x := x.toList
  decode bs :=
    if h : (bs.take 32).length = 32 then
      some (⟨(bs.take 32).toArray, by simpa using h⟩, bs.drop 32)
    else
      none

instance : Wire Mersenne61 where
  encode x := toLittleEndian 8 x.rep.toNat
  decode bs := (decodeNat 8 bs).map fun (n, rest) => (⟨UInt64.ofNat n⟩, rest)

instance : Wire Ring128 where
  encode x := toLittleEndian 16 x.bits.toNat
  decode bs := (decodeNat 16 bs).map fun (n, rest) => (Ring128.ofNat n, rest)

instance {α β : Type} [Wire α] [Wire β] : Wire (α × β) where
  encode x := encode x.1 ++ encode x.2
  decode bs := do
    let (a, bs) ← decode bs
    let (b, bs) ← decode bs
    return ((a, b), bs)

instance {α : Type} [Wire α] : Wire (List α) where
  encode xs := toLittleEndian 8 xs.length ++ xs.flatMap encode
  decode bs := do
    let (n, bs) ← decodeNat 8 bs
    decodeMany n bs

instance : Wire String where
  encode s := toLittleEndian 8 s.utf8ByteSize ++ s.toUTF8.data.toList
  decode bs := do
    let (n, bs) ← decodeNat 8 bs
    let (front, bs) ← split n bs
    let s ← String.fromUTF8? ⟨front.toArray⟩
    return (s, bs)

/-- Reads a whole message, whatever follows the value. -/
def read? {α : Type} [Wire α] (bs : Bytes) : Option α := (decode bs).map (·.1)

end Wire

end AuthShares
