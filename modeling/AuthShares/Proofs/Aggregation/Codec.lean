import AuthShares.Aggregation.Message
import AuthShares.Proofs.Bytes.Reads
import Mathlib.Data.List.GetD

/-!
# Messages that arrive

A value that was packed in its declared length arrives as the element with the bytes
that were sent. If every value of a message can be sent in its length, the receiver
reads the whole message, combines every value of the range with its own one and keeps
the others.
-/

set_option autoImplicit false

namespace AuthShares

namespace Element

variable {T : Type} [Element T]

/-- The element that arrives when `x` is sent in the declared length. -/
def arrival (len : Option Nat) (x : T) : T := ofBytes (packed len x)

/-- A value can be sent in the declared length: its bytes are as many as the receiver
expects, and the element they stand for is accepted. -/
structure Sendable (len : Option Nat) (x : T) : Prop where
  declared : declaredLength (size T) len = .ok (packed len x).length
  canonical : isCanonical (arrival len x)

theorem unpack_unread {len : Option Nat} {y : T} {b : Buffer} {rest : Bytes}
    (hy : Sendable len y) (h : b.unread = packed len y ++ rest) :
    ∃ b', (unpack len : Reader T).run b = (.ok (arrival len y), b') ∧ b'.unread = rest := by
  have henough : (packed len y).length ≤ b.remaining := by
    rw [← Buffer.length_unread, h, List.length_append]
    exact Nat.le_add_right _ _
  refine ⟨b.advance (packed len y).length, ?_, ?_⟩
  · apply unpack_ok_iff.mpr
    refine ⟨_, hy.declared, henough, hy.canonical, ?_, rfl⟩
    rw [h, List.take_left]
    rfl
  · rw [Buffer.unread_advance, h, List.drop_left]

end Element

def Combine.apply {T : Type} [Element T] : Combine → T → T → T
  | .add, x, y => x + y
  | .replace, _, y => y

namespace Message

variable {T : Type} [Element T]

theorem readOne_unread (combine : Combine) {len : Option Nat} (x : T) {y : T} {b : Buffer}
    {rest : Bytes} (hy : Element.Sendable len y)
    (h : b.unread = Element.packed len y ++ rest) :
    ∃ b', (readOne combine len x).run b = (.ok (combine.apply x (Element.arrival len y)), b') ∧
      b'.unread = rest := by
  obtain ⟨b', hb, hr⟩ := Element.unpack_unread hy h
  refine ⟨b', ?_, hr⟩
  cases combine with
  | add =>
    rw [readOne, Element.addFrom, Reader.run_bind hb]
    rfl
  | replace => exact hb

def combined (combine : Combine) : List (Option Nat) → List T → List T → List T
  | lengths, x :: xs, y :: ys =>
    combine.apply x (Element.arrival (lengths.headD none) y) :: combined combine lengths.tail xs ys
  | _, _, _ => []

theorem getD_tail (lengths : List (Option Nat)) (k : Nat) :
    lengths.tail.getD k none = lengths.getD (k + 1) none := by
  cases lengths <;> rfl

theorem headD_eq_getD (lengths : List (Option Nat)) :
    lengths.headD none = lengths.getD 0 none := by
  cases lengths <;> rfl

theorem length_combined (combine : Combine) (lengths : List (Option Nat)) (xs ys : List T)
    (h : xs.length = ys.length) : (combined combine lengths xs ys).length = xs.length := by
  induction xs generalizing lengths ys with
  | nil => rfl
  | cons x xs ih =>
    cases ys with
    | nil => cases h
    | cons y ys => simp [combined, ih lengths.tail ys (Nat.succ.inj h)]

theorem getD_combined (combine : Combine) (lengths : List (Option Nat)) (xs ys : List T)
    (h : xs.length = ys.length) (k : Nat) (hk : k < xs.length) :
    (combined combine lengths xs ys).getD k 0 = combine.apply (xs.getD k 0)
      (Element.arrival (lengths.getD k none) (ys.getD k 0)) := by
  induction xs generalizing lengths ys k with
  | nil => cases hk
  | cons x xs ih =>
    cases ys with
    | nil => cases h
    | cons y ys =>
      cases k with
      | zero =>
        rw [combined, headD_eq_getD]
        rfl
      | succ k =>
        rw [combined, List.getD_cons_succ, ih _ _ (Nat.succ.inj h) k (Nat.lt_of_succ_lt_succ hk),
          getD_tail]
        rfl

theorem absorb_unread (combine : Combine) (lengths : List (Option Nat)) (xs ys : List T)
    (b : Buffer) (hlen : xs.length = ys.length)
    (hs : ∀ k < ys.length, Element.Sendable (lengths.getD k none) (ys.getD k 0))
    (h : b.unread = encode lengths ys) :
    absorb combine lengths xs b = (.ok (), combined combine lengths xs ys) := by
  induction xs generalizing lengths ys b with
  | nil =>
    obtain rfl : ys = [] := List.length_eq_zero_iff.mp hlen.symm
    rw [absorb, Buffer.close_ok_iff.mpr h]
    rfl
  | cons x xs ih =>
    cases ys with
    | nil => cases hlen
    | cons y ys =>
      have hy : Element.Sendable (lengths.headD none) y := by
        rw [headD_eq_getD]
        exact hs 0 (by simp)
      have hcut : b.unread = Element.packed (lengths.headD none) y ++ encode lengths.tail ys := by
        rw [h, encode, fields, List.append_assoc]
        rfl
      obtain ⟨b', hb, hr⟩ := readOne_unread combine x hy hcut
      have hrest : ∀ k < ys.length, Element.Sendable (lengths.tail.getD k none) (ys.getD k 0) := by
        intro k hk
        rw [getD_tail]
        exact hs (k + 1) (by simpa using hk)
      rw [absorb, hb]
      simp only [ih lengths.tail ys b' (Nat.succ.inj hlen) hrest hr]
      rfl

omit [Element T] in
theorem length_slice {start stop : Nat} {xs : List T} (hstop : stop ≤ xs.length) :
    ((xs.drop start).take (stop - start)).length = stop - start := by
  rw [List.length_take, List.length_drop]
  omega

theorem getD_slice {start stop : Nat} (xs : List T) {k : Nat} (hk : k < stop - start) :
    ((xs.drop start).take (stop - start)).getD k 0 = xs.getD (start + k) 0 := by
  simp [List.getD_eq_getElem?_getD, hk]

section

variable {start stop : Nat} {xs ws : List T} (hle : start ≤ stop) (hstop : stop ≤ xs.length)
  (hlen : ws.length = stop - start)
include hle hstop hlen

omit [Element T] in
theorem length_splice : (xs.take start ++ ws ++ xs.drop stop).length = xs.length := by
  simp [hlen]
  omega

theorem getD_splice (k : Nat) : (xs.take start ++ ws ++ xs.drop stop).getD k 0 =
    if start ≤ k ∧ k < stop then ws.getD (k - start) 0 else xs.getD k 0 := by
  have htake : (xs.take start).length = start := List.length_take_of_le (Nat.le_trans hle hstop)
  rw [List.append_assoc]
  by_cases hlow : k < start
  · rw [if_neg (by omega), List.getD_append _ _ _ _ (by omega)]
    simp [List.getD_eq_getElem?_getD, hlow]
  · rw [List.getD_append_right _ _ _ _ (by omega), htake]
    by_cases hhigh : k < stop
    · rw [if_pos ⟨by omega, hhigh⟩, List.getD_append _ _ _ _ (by omega)]
    · rw [if_neg (by omega), List.getD_append_right _ _ _ _ (by omega), hlen]
      simp only [List.getD_eq_getElem?_getD, List.getElem?_drop]
      congr 2
      omega

end

theorem absorbRange_encodeRange (combine : Combine) (lengths : List (Option Nat))
    {start stop : Nat} {xs ys : List T} (hlen : xs.length = ys.length) (hle : start ≤ stop)
    (hstop : stop ≤ xs.length)
    (hs : ∀ k, start ≤ k → k < stop → Element.Sendable (lengths.getD k none) (ys.getD k 0)) :
    ∃ zs, absorbRange combine lengths start stop xs (encodeRange lengths start stop ys) =
        (.ok (), zs) ∧ zs.length = xs.length ∧
      ∀ k < xs.length, zs.getD k 0 = if start ≤ k ∧ k < stop then
        combine.apply (xs.getD k 0) (Element.arrival (lengths.getD k none) (ys.getD k 0))
      else xs.getD k 0 := by
  have hlengths : ∀ k, (lengths.drop start).getD k none = lengths.getD (start + k) none := by
    intro k
    simp [List.getD_eq_getElem?_getD]
  have hxs : ((xs.drop start).take (stop - start)).length = stop - start := length_slice hstop
  have hys : ((ys.drop start).take (stop - start)).length = stop - start :=
    length_slice (hlen ▸ hstop)
  have hsendable : ∀ k < ((ys.drop start).take (stop - start)).length,
      Element.Sendable ((lengths.drop start).getD k none)
        (((ys.drop start).take (stop - start)).getD k 0) := by
    intro k hk
    rw [hys] at hk
    rw [getD_slice ys hk, hlengths]
    exact hs _ (by omega) (by omega)
  have habs := absorb_unread combine (lengths.drop start) _ _
    (.ofBytes (encodeRange lengths start stop ys)) (hxs.trans hys.symm) hsendable
    (Buffer.unread_ofBytes _)
  have hcombined := (length_combined combine (lengths.drop start) _ _
    (hxs.trans hys.symm)).trans hxs
  refine ⟨_, ?_, length_splice hle hstop hcombined, fun k _ => ?_⟩
  · rw [absorbRange, habs]
    simp only [hcombined, Nat.add_sub_cancel' hle]
  · rw [getD_splice hle hstop hcombined]
    by_cases hin : start ≤ k ∧ k < stop
    · have hk : k - start < stop - start := by omega
      rw [if_pos hin, if_pos hin, getD_combined _ _ _ _ (hxs.trans hys.symm) _ (hxs.symm ▸ hk),
        getD_slice xs hk, getD_slice ys hk, hlengths, Nat.add_sub_cancel' hin.1]
    · rw [if_neg hin, if_neg hin]

end Message

end AuthShares
