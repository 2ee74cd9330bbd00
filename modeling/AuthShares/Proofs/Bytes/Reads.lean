import AuthShares.Element.Basic

/-!
# Reads from the front

Each kind of read has one equation, which says what it answers and how far the head moves, for reads
that fail as well. Nothing but the bytes that are left matters for it.
-/

set_option autoImplicit false

namespace AuthShares

namespace Reader

variable {α β : Type} {m : Reader α} {f : α → Reader β} {b b' : Buffer}

theorem run_bind {a : α} (h : m.run b = (.ok a, b')) : (m >>= f).run b = (f a).run b' := by
  show (StateT.bind m.run (ExceptT.bindCont f) b : Id _) = _
  rw [StateT.bind, h]
  rfl

theorem run_bind_error {e : ReadError} (h : m.run b = (.error e, b')) :
    (m >>= f).run b = (.error e, b') := by
  show (StateT.bind m.run (ExceptT.bindCont f) b : Id _) = _
  rw [StateT.bind, h]
  rfl

theorem bind_ok {y : β} (h : (m >>= f).run b = (.ok y, b')) :
    ∃ a b₁, m.run b = (.ok a, b₁) ∧ (f a).run b₁ = (.ok y, b') := by
  rcases hm : m.run b with ⟨e | a, b₁⟩
  · rw [run_bind_error hm] at h
    cases h
  · exact ⟨a, b₁, rfl, (run_bind hm).symm.trans h⟩

end Reader

def ending? : Bytes → Option ReadError
  | [] => some .missingTerminator
  | c :: rest =>
    if c ≠ Buffer.terminator then some .missingTerminator
    else if 0 < rest.length then some (.trailingBytes rest.length)
    else none

theorem ending?_eq_none {bs : Bytes} : ending? bs = none ↔ bs = [Buffer.terminator] := by
  cases bs with
  | nil => simp [ending?]
  | cons c rest =>
    rw [ending?, List.cons.injEq]
    by_cases hc : c = Buffer.terminator
    · cases rest <;> simp [hc]
    · simp [hc]

def ReadError.report : Option ReadError → Except ReadError Unit
  | none => .ok ()
  | some e => .error e

theorem ReadError.report_eq_ok {e : Option ReadError} : report e = .ok () ↔ e = none := by
  cases e <;> simp [report]

namespace Buffer

def unread (b : Buffer) : Bytes := b.data.toList.drop b.head

theorem unread_ofBytes (bs : Bytes) : (ofBytes bs).unread = bs := by
  simp [unread, ofBytes]

theorem length_unread (b : Buffer) : b.unread.length = b.remaining := by
  simp [unread, remaining]

def advance (b : Buffer) (n : Nat) : Buffer := { b with head := b.head + n }

theorem unread_advance (b : Buffer) (n : Nat) : (b.advance n).unread = b.unread.drop n := by
  simp [unread, advance]

theorem remaining_advance (b : Buffer) (n : Nat) : (b.advance n).remaining = b.remaining - n := by
  rw [← length_unread, unread_advance, List.length_drop, length_unread]

theorem consume_run (n : Nat) (b : Buffer) : (consume n).run b =
    if n ≤ b.remaining then (.ok (b.unread.take n), b.advance n)
    else (.error (.truncated n b.remaining), b) := by
  show (if n ≤ b.remaining then _ else _ : Reader Bytes).run b = _
  split
  · show (Except.ok (b.data.extract b.head (b.head + n)).toList, b.advance n) = _
    simp [unread]
  · rfl

theorem expectTerminator_run (b : Buffer) : expectTerminator.run b =
    match b.unread with
    | [] => (.error .missingTerminator, b)
    | c :: _ => (if c = terminator then .ok () else .error .missingTerminator, b.advance 1) := by
  have hlen := length_unread b
  show (if b.remaining = 0 then _ else _ : Reader Unit).run b = _
  rcases hb : b.unread with _ | ⟨c, rest⟩
  · rw [hb] at hlen
    have hnone : b.remaining = 0 := hlen.symm
    rw [if_pos hnone]
    rfl
  · rw [hb, List.length_cons] at hlen
    have htake : (consume 1).run b = (.ok [c], b.advance 1) := by
      rw [consume_run, if_pos (by omega), hb]
      rfl
    rw [if_neg (by omega), Reader.run_bind htake]
    by_cases hc : c = terminator
    · simp only [hc]
      rfl
    · simp only [List.cons.injEq, hc, and_true, if_false]
      rfl

theorem expectEnd_run (b : Buffer) : expectEnd.run b =
    (if b.remaining = 0 then .ok () else .error (.trailingBytes b.remaining), b) := by
  show (if b.remaining = 0 then _ else _ : Reader Unit).run b = _
  split <;> rfl

theorem close_run (b : Buffer) :
    ((do expectTerminator; expectEnd : Reader Unit).run b).1 =
      ReadError.report (ending? b.unread) := by
  have hterm := expectTerminator_run b
  have hleft := remaining_advance b 1
  rw [← length_unread b] at hleft
  cases hb : b.unread with
  | nil =>
    rw [hb] at hterm
    rw [Reader.run_bind_error hterm]
    rfl
  | cons c rest =>
    rw [hb] at hterm hleft
    by_cases hc : c = terminator
    · simp only [if_pos hc] at hterm
      rw [Reader.run_bind hterm, expectEnd_run, hleft, ending?, if_neg (not_not_intro hc)]
      cases rest <;> rfl
    · simp only [if_neg hc] at hterm
      rw [Reader.run_bind_error hterm, ending?, if_pos hc]
      rfl

theorem close_ok_iff {b : Buffer} :
    ((do expectTerminator; expectEnd : Reader Unit).run b).1 = .ok () ↔
      b.unread = [terminator] := by
  rw [close_run, ReadError.report_eq_ok, ending?_eq_none]

end Buffer

namespace Element

variable {T : Type} [Element T] {len : Option Nat}

theorem unpack_run_of_declared {n : Nat} (h : declaredLength (size T) len = .ok n) (b : Buffer) :
    (unpack len : Reader T).run b =
      if n ≤ b.remaining then
        (if isCanonical (ofBytes (b.unread.take n) : T) then .ok (ofBytes (b.unread.take n))
          else .error .nonCanonical, b.advance n)
      else (.error (.truncated n b.remaining), b) := by
  have hdeclared : (unpack.liftExcept (declaredLength (size T) len)).run b = (.ok n, b) := by
    rw [h]
    rfl
  have hconsume := Buffer.consume_run n b
  rw [unpack, Reader.run_bind hdeclared]
  dsimp only
  split
  · rw [if_pos ‹_›] at hconsume
    rw [Reader.run_bind hconsume]
    split <;> rfl
  · rw [if_neg ‹_›] at hconsume
    exact Reader.run_bind_error hconsume

theorem unpack_run_of_refused {e : ReadError} (h : declaredLength (size T) len = .error e)
    (b : Buffer) : (unpack len : Reader T).run b = (.error e, b) := by
  rw [unpack, h]
  rfl

theorem unpack_ok_iff {b b' : Buffer} {y : T} : (unpack len : Reader T).run b = (.ok y, b') ↔
    ∃ n, declaredLength (size T) len = .ok n ∧ n ≤ b.remaining ∧ isCanonical y ∧
      ofBytes (b.unread.take n) = y ∧ b.advance n = b' := by
  constructor
  · intro h
    cases hlen : declaredLength (size T) len with
    | error e =>
      rw [unpack_run_of_refused hlen] at h
      cases h
    | ok n =>
      rw [unpack_run_of_declared hlen] at h
      split at h
      · split at h <;> cases h
        exact ⟨n, rfl, ‹_›, ‹_›, rfl, rfl⟩
      · cases h
  · rintro ⟨n, hlen, henough, hcan, rfl, rfl⟩
    rw [unpack_run_of_declared hlen, if_pos henough, if_pos hcan]

end Element

end AuthShares
