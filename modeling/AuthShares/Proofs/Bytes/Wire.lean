import AuthShares.Commitment

/-!
# Reading typed messages back

A value that was written is read off the front of any bytes that begin with it, and what
follows it is left. Lists are read back up to the length that their prefix can count.
-/

set_option autoImplicit false

namespace AuthShares

class LawfulWire (α : Type) [Wire α] : Prop where
  decode_encode (x : α) (rest : Bytes) : Wire.decode (Wire.encode x ++ rest) = some (x, rest)

theorem toLittleEndian_eq_iff {width a b : Nat} :
    toLittleEndian width a = toLittleEndian width b ↔
      a % byteRange width = b % byteRange width := by
  have hmod : ∀ k, toLittleEndian width (k % byteRange width) = toLittleEndian width k := by
    intro k
    have h := toLittleEndian_ofLittleEndian (toLittleEndian width k)
    rwa [length_toLittleEndian, ofLittleEndian_toLittleEndian] at h
  constructor
  · intro h
    rw [← ofLittleEndian_toLittleEndian, h, ofLittleEndian_toLittleEndian]
  · intro h
    rw [← hmod a, h, hmod b]

variable {α β : Type} [Wire α] [Wire β] [LawfulWire α] [LawfulWire β]

namespace Wire

theorem decodeNat_append (width n : Nat) (rest : Bytes) (h : n < byteRange width) :
    decodeNat width (toLittleEndian width n ++ rest) = some (n, rest) := by
  have hs := split_append (toLittleEndian width n) rest
  rw [length_toLittleEndian] at hs
  have hv : ofLittleEndian (toLittleEndian width n) = n := by
    rw [ofLittleEndian_toLittleEndian, Nat.mod_eq_of_lt h]
  rw [decodeNat, hs, Option.map_some]
  exact congrArg (fun v => some (v, rest)) hv

instance : LawfulWire Bytes32 where
  decode_encode x rest := by
    have hlen : x.toList.length = 32 := x.size_toArray
    have htake : (x.toList ++ rest).take 32 = x.toList := List.take_left' hlen
    have hdrop : (x.toList ++ rest).drop 32 = rest := List.drop_left' hlen
    simp only [encode, decode, htake, hdrop, hlen, dif_pos]
    rfl

instance : LawfulWire Mersenne61 where
  decode_encode x rest := by
    have h := decodeNat_append 8 x.rep.toNat rest x.rep.toNat_lt
    show (decodeNat 8 (toLittleEndian 8 x.rep.toNat ++ rest)).map _ = _
    rw [h]
    simp

instance : LawfulWire Ring128 where
  decode_encode x rest := by
    have h := decodeNat_append 16 x.bits.toNat rest x.bits.isLt
    show (decodeNat 16 (toLittleEndian 16 x.bits.toNat ++ rest)).map _ = _
    rw [h]
    simp [Ring128.ofNat]

instance : LawfulWire (α × β) where
  decode_encode x rest := by
    show (decode (encode x.1 ++ encode x.2 ++ rest)).bind _ = _
    rw [List.append_assoc, LawfulWire.decode_encode]
    show (decode (encode x.2 ++ rest)).bind _ = _
    rw [LawfulWire.decode_encode]
    rfl

theorem decodeMany_flatMap (xs : List α) (rest : Bytes) :
    decodeMany xs.length (xs.flatMap encode ++ rest) = some (xs, rest) := by
  induction xs with
  | nil => rfl
  | cons x xs ih =>
    rw [List.length_cons, List.flatMap_cons, List.append_assoc, decodeMany,
      LawfulWire.decode_encode]
    show (decodeMany xs.length (xs.flatMap encode ++ rest)).bind _ = _
    rw [ih]
    rfl

theorem read_encode_list (xs : List α) (h : xs.length < wordRange) :
    read? (encode xs) = some xs := by
  have hn := decodeNat_append 8 xs.length (xs.flatMap encode) h
  have hm := decodeMany_flatMap xs []
  rw [List.append_nil] at hm
  show ((decodeNat 8 (toLittleEndian 8 xs.length ++ xs.flatMap encode)).bind _).map _ = _
  rw [hn]
  show (decodeMany xs.length (xs.flatMap encode)).map _ = _
  rw [hm]
  rfl

end Wire

theorem decodeListOf_encode (phase : String) (xs : List α) (h : xs.length < wordRange) :
    decodeListOf phase xs.length (Wire.encode xs) = .ok xs := by
  rw [decodeListOf, decodeList, Wire.read_encode_list xs h]
  exact if_pos rfl

end AuthShares
