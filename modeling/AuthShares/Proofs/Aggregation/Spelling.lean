import AuthShares.Proofs.Aggregation.Lengths
import AuthShares.Proofs.Bytes.Wire

/-!
# How messages are spelled

A message is accepted just if it spells elements: each of them canonical and in exactly as
many little-endian bytes as declared, one after another, with a zero at the end. There is
one spelling of any elements, so that what a receiver takes over is packed again as the
message that it received.
-/

set_option autoImplicit false

namespace AuthShares

variable {T : Type} [MacElement T] [Written T] {lengths : List (Option Nat)}

open Element Modular

theorem Element.unpack_ok {len : Option Nat} (hlen : width T len ≤ size T) {b b' : Buffer} {y : T}
    (h : (unpack len : Reader T).run b = (.ok y, b')) :
    isCanonical y ∧ rep y < 256 ^ width T len ∧
      b.unread = toLittleEndian (width T len) (rep y) ++ b'.unread := by
  obtain ⟨n, hn, henough, hcan, rfl, rfl⟩ := unpack_ok_iff.mp h
  rw [declaredLength_width hlen] at hn
  cases hn
  have hwidth : (b.unread.take (width T len)).length = width T len := by
    rw [← Buffer.length_unread] at henough
    exact List.length_take_of_le henough
  have hrep : rep (ofBytes (b.unread.take (width T len)) : T) =
      ofLittleEndian (b.unread.take (width T len)) :=
    Written.rep_ofBytes _ (hwidth.trans_le hlen)
  have hlt := ofLittleEndian_lt (b.unread.take (width T len))
  have hspelled := toLittleEndian_ofLittleEndian (b.unread.take (width T len))
  rw [hwidth] at hlt hspelled
  rw [hrep, ← byteRange_eq_pow, Buffer.unread_advance, hspelled, List.take_append_drop]
  exact ⟨hcan, hlt, rfl⟩

namespace Message

/-- The message spells elements for the positions from `start` on: canonical ones, each in
the bytes of its declared length, and a zero after the last. -/
structure Spells (lengths : List (Option Nat)) (start : Nat) (ws : List T) (message : Bytes) :
    Prop where
  canonical : ∀ w ∈ ws, isCanonical w
  lt (k : Nat) (hk : k < ws.length) : rep ws[k] < 256 ^ widthAt T lengths (start + k)
  spelling : message = (ws.mapIdx fun k w =>
    toLittleEndian (widthAt T lengths (start + k)) (rep w)).flatten ++ [0]

theorem spells_nil {start : Nat} {message : Bytes} :
    Spells lengths start ([] : List T) message ↔ message = [0] :=
  ⟨fun h => h.spelling, fun h => ⟨by simp, fun _ hk => absurd hk (Nat.not_lt_zero _), h⟩⟩

theorem spells_cons {start : Nat} {w : T} {ws : List T} {message : Bytes} :
    Spells lengths start (w :: ws) message ↔
      isCanonical w ∧ rep w < 256 ^ widthAt T lengths start ∧
        ∃ rest, Spells lengths (start + 1) ws rest ∧
          message = toLittleEndian (widthAt T lengths start) (rep w) ++ rest := by
  have hshift : ∀ k, start + 1 + k = start + (k + 1) := fun k => by omega
  constructor
  · rintro ⟨hcan, hlt, hmsg⟩
    refine ⟨hcan w (by simp), hlt 0 (by simp), _, ⟨fun v hv => hcan v (by simp [hv]),
      fun k hk => ?_, rfl⟩, ?_⟩
    · rw [hshift]
      exact hlt (k + 1) (by simpa using hk)
    · simpa [List.mapIdx_cons, hshift] using hmsg
  · rintro ⟨hcan, hlt, rest, ⟨hcans, hlts, hrest⟩, hmsg⟩
    refine ⟨List.forall_mem_cons.mpr ⟨hcan, hcans⟩, fun k hk => ?_, ?_⟩
    · cases k with
      | zero => exact hlt
      | succ k =>
        rw [← hshift]
        exact hlts k (by simpa using hk)
    · simpa [List.mapIdx_cons, hshift, hrest] using hmsg

theorem headD_drop (start : Nat) : (lengths.drop start).headD none = lengths.getD start none := by
  rw [headD_eq_getD, List.getD_eq_getElem?_getD, List.getElem?_drop, ← List.getD_eq_getElem?_getD,
    Nat.add_zero]

theorem Spells.encode_eq (hfits : Fits T lengths) {start : Nat} {ws : List T} {message : Bytes}
    (h : Spells lengths start ws message) : encode (lengths.drop start) ws = message := by
  induction ws generalizing start message with
  | nil => exact (spells_nil.mp h).symm
  | cons w ws ih =>
    obtain ⟨-, -, rest, hrest, rfl⟩ := spells_cons.mp h
    rw [encode, fields, headD_drop, packed_eq (hfits.widthAt_le start), List.append_assoc,
      List.tail_drop]
    exact congrArg _ (ih hrest)

theorem Spells.combined_eq (hfits : Fits T lengths) (combine : Combine) {start : Nat} {ws : List T}
    {message : Bytes} (h : Spells lengths start ws message) (xs : List T) :
    combined combine (lengths.drop start) xs ws = List.zipWith combine.apply xs ws := by
  induction xs generalizing start ws message with
  | nil => rfl
  | cons x xs ih =>
    cases ws with
    | nil => rfl
    | cons w ws =>
      obtain ⟨-, hlt, rest, hrest, -⟩ := spells_cons.mp h
      rw [combined, headD_drop, List.tail_drop, ih hrest, List.zipWith_cons_cons,
        arrival_of_lt (hfits.widthAt_le start) (by rwa [byteRange_eq_pow])]

theorem absorb_of_spells (hfits : Fits T lengths) (combine : Combine) {start : Nat} {ws : List T}
    {message : Bytes} (h : Spells lengths start ws message) {xs : List T}
    (hlen : ws.length = xs.length) :
    absorb combine (lengths.drop start) xs (.ofBytes message) =
      (.ok (), List.zipWith combine.apply xs ws) := by
  rw [absorb_unread combine _ xs ws _ hlen.symm (fun k _ => ?_), h.combined_eq hfits]
  · rw [Buffer.unread_ofBytes, h.encode_eq hfits]
  · exact sendable ((hfits.drop start).widthAt_le k) (getD_canonical h.canonical k)

omit [Written T] in
theorem readOne_ok (combine : Combine) {len : Option Nat} {x z : T} {b b' : Buffer}
    (h : (readOne combine len x).run b = (.ok z, b')) :
    ∃ y, (unpack len : Reader T).run b = (.ok y, b') ∧ z = combine.apply x y := by
  cases combine with
  | add =>
    obtain ⟨y, b₁, hy, hz⟩ := Reader.bind_ok h
    cases hz
    exact ⟨y, hy, rfl⟩
  | replace => exact ⟨z, h, rfl⟩

theorem spells_of_absorb (hfits : Fits T lengths) (combine : Combine) (start : Nat) (xs : List T)
    (b : Buffer) (h : (absorb combine (lengths.drop start) xs b).1 = .ok ()) :
    ∃ ws : List T, ws.length = xs.length ∧ Spells lengths start ws b.unread := by
  induction xs generalizing start b with
  | nil => exact ⟨[], rfl, spells_nil.mpr (Buffer.close_ok_iff.mp h)⟩
  | cons x xs ih =>
    rw [absorb, headD_drop, List.tail_drop] at h
    rcases hread : (readOne combine (lengths.getD start none) x).run b with ⟨_ | z, b'⟩
    · rw [hread] at h
      cases h
    · rw [hread] at h
      obtain ⟨w, hw, -⟩ := readOne_ok combine hread
      obtain ⟨hcan, hlt, hcut⟩ := unpack_ok (hfits.widthAt_le start) hw
      obtain ⟨ws, hlen, hws⟩ := ih (start + 1) b' h
      exact ⟨w :: ws, congrArg (· + 1) hlen, spells_cons.mpr ⟨hcan, hlt, _, hws, hcut⟩⟩

theorem spells_encode (hfits : Fits T lengths) (start : Nat) (vs : List T)
    (hcan : ∀ v ∈ vs, isCanonical v) :
    Spells lengths start (vs.mapIdx fun k v =>
        (ofNat (rep v % 256 ^ widthAt T lengths (start + k)) : T)) (encode (lengths.drop start) vs) := by
  induction vs generalizing start with
  | nil => exact spells_nil.mpr rfl
  | cons v vs ih =>
    obtain ⟨hv, hvs⟩ := List.forall_mem_cons.mp hcan
    have hfit := hfits.widthAt_le start
    have hrest := ih (start + 1) hvs
    simp only [show ∀ k, start + 1 + k = start + (k + 1) by omega] at hrest
    have hrep : rep (ofNat (rep v % 256 ^ widthAt T lengths start) : T) =
        rep v % 256 ^ widthAt T lengths start := by
      rw [← byteRange_eq_pow]
      exact (congrArg rep (arrival_eq_ofNat hfit hv)).symm.trans (rep_arrival hfit v)
    simp only [List.mapIdx_cons, Nat.add_zero]
    refine spells_cons.mpr ⟨ofNat_canonical _, ?_, _, hrest, ?_⟩
    · exact hrep.trans_lt (Nat.mod_lt _ (Nat.pow_pos (by decide)))
    · rw [encode, fields, headD_drop, List.tail_drop, List.append_assoc, packed_eq hfit,
        hrep, ← byteRange_eq_pow]
      exact congrArg (· ++ _) (toLittleEndian_eq_iff.mpr (Nat.mod_mod _ _).symm)

theorem absorbRange_of_spells (hfits : Fits T lengths) (combine : Combine) {start stop : Nat}
    (hle : start ≤ stop) {xs ws : List T} {message : Bytes} (hstop : stop ≤ xs.length)
    (hlen : ws.length = stop - start) (h : Spells lengths start ws message) :
    absorbRange combine lengths start stop xs message = (.ok (), xs.take start ++
      List.zipWith combine.apply ((xs.drop start).take (stop - start)) ws ++ xs.drop stop) := by
  have hrange : ((xs.drop start).take (stop - start)).length = stop - start := length_slice hstop
  rw [absorbRange, absorb_of_spells hfits combine h (hlen.trans hrange.symm)]
  simp only [List.length_zipWith, hrange, hlen, Nat.min_self, Nat.add_sub_cancel' hle]

omit [MacElement T] [Written T] in
theorem drop_take_splice {start stop : Nat} {xs ws : List T} (hstart : start ≤ xs.length)
    (hlen : ws.length = stop - start) :
    ((xs.take start ++ ws ++ xs.drop stop).drop start).take (stop - start) = ws := by
  have htake : (xs.take start).length = start := List.length_take_of_le hstart
  rw [List.append_assoc, List.drop_left' htake, List.take_left' hlen]

omit [Written T] in
theorem zipWith_replace {xs ws : List T} (h : ws.length = xs.length) :
    List.zipWith Combine.replace.apply xs ws = ws := by
  induction xs generalizing ws with
  | nil => exact (List.length_eq_zero_iff.mp h).symm
  | cons x xs ih =>
    cases ws with
    | nil => cases h
    | cons w ws => exact congrArg (w :: ·) (ih (Nat.succ.inj h))

/-- A message is accepted for a range just if it spells elements for it. Then these are put
in the place of the values of the range, which are packed as that message, or are added to
them; and no other value changes. What canonical values are packed into is accepted, and
arrives modulo the numbers that fit into the declared bytes. -/
theorem absorbRange_exact (hfits : Fits T lengths) {start stop : Nat} (hle : start ≤ stop)
    {xs : List T} (hstop : stop ≤ xs.length) (message : Bytes) :
    (∀ combine, (absorbRange combine lengths start stop xs message).1 = .ok () ↔
      ∃ ws : List T, ws.length = stop - start ∧ Spells lengths start ws message) ∧
    (∀ ws : List T, ws.length = stop - start → Spells lengths start ws message →
      absorbRange .replace lengths start stop xs message =
        (.ok (), xs.take start ++ ws ++ xs.drop stop) ∧
      encodeRange lengths start stop (xs.take start ++ ws ++ xs.drop stop) = message ∧
      absorbRange .add lengths start stop xs message = (.ok (), xs.take start ++
        List.zipWith (· + ·) ((xs.drop start).take (stop - start)) ws ++ xs.drop stop)) ∧
    ∀ vs : List T, stop ≤ vs.length → (∀ v ∈ vs, isCanonical v) →
      absorbRange .replace lengths start stop xs (encodeRange lengths start stop vs) =
        (.ok (), xs.take start ++ (((vs.drop start).take (stop - start)).mapIdx fun k v =>
          ofNat (rep v % 256 ^ widthAt T lengths (start + k))) ++ xs.drop stop) := by
  have hreplace : ∀ ws : List T, ws.length = stop - start → ∀ message,
      Spells lengths start ws message → absorbRange .replace lengths start stop xs message =
        (.ok (), xs.take start ++ ws ++ xs.drop stop) := by
    intro ws hlen message h
    rw [absorbRange_of_spells hfits .replace hle hstop hlen h,
      zipWith_replace (hlen.trans (length_slice hstop).symm)]
  refine ⟨fun combine => ⟨fun h => ?_, fun ⟨ws, hlen, h⟩ => ?_⟩, fun ws hlen h => ⟨?_, ?_, ?_⟩,
    fun vs hvs hcan => ?_⟩
  · obtain ⟨ws, hlen, hws⟩ := spells_of_absorb hfits combine start _ _ h
    rw [Buffer.unread_ofBytes] at hws
    exact ⟨ws, hlen.trans (length_slice hstop), hws⟩
  · rw [absorbRange_of_spells hfits combine hle hstop hlen h]
  · exact hreplace ws hlen message h
  · rw [encodeRange, drop_take_splice (hle.trans hstop) hlen, h.encode_eq hfits]
  · exact absorbRange_of_spells hfits .add hle hstop hlen h
  · refine hreplace _ ?_ _ (spells_encode hfits start _ fun v hv => hcan v ?_)
    · rw [List.length_mapIdx, length_slice hvs]
    · exact List.mem_of_mem_drop (List.mem_of_mem_take hv)

theorem absorbRange_exact_mixed : Fits Mersenne61 [some 1, none, some 0, some 1] ∧ 1 ≤ 4 ∧
    4 ≤ [(⟨9⟩ : Mersenne61), ⟨9⟩, ⟨9⟩, ⟨9⟩].length ∧
    absorbRange .replace [some 1, none, some 0, some 1] 1 4 [(⟨9⟩ : Mersenne61), ⟨9⟩, ⟨9⟩, ⟨9⟩]
      [44, 1, 0, 0, 0, 0, 0, 0, 44, 0] = (.ok (), [⟨9⟩, ⟨300⟩, ⟨0⟩, ⟨44⟩]) := by
  have hfits : Fits Mersenne61 [some 1, none, some 0, some 1] := by decide
  refine ⟨hfits, by decide, by decide, ?_⟩
  exact (absorbRange_exact hfits (by decide) (by decide) []).2.2 [⟨7⟩, ⟨300⟩, ⟨300⟩, ⟨300⟩]
    (by decide) (by decide)

end Message

end AuthShares
