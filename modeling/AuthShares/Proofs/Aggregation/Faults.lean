import AuthShares.Proofs.Aggregation.Spelling

/-!
# Messages that break off

A message is read value by value, and the first that cannot be read ends it: there are too few
bytes left for it, or they spell no canonical element. Behind the last value come the terminator and
then nothing. The values before the first fault have been taken over as if the message were right;
that one, those after it and those outside of the range are as before.
-/

set_option autoImplicit false

namespace AuthShares

open Element Modular

variable {T : Type} [MacElement T] [Written T] {lengths : List (Option Nat)}

namespace Message

def offset (T : Type) [Element T] (lengths : List (Option Nat)) (start k : Nat) : Nat :=
  ((List.range k).map fun j => widthAt T lengths (start + j)).sum

def number (T : Type) [Element T] (lengths : List (Option Nat)) (start : Nat) (message : Bytes)
    (k : Nat) : Nat :=
  ofLittleEndian ((message.drop (offset T lengths start k)).take (widthAt T lengths (start + k)))

def fault? (T : Type) [MacElement T] [Modular T] (lengths : List (Option Nat)) (start : Nat)
    (message : Bytes) (k : Nat) : Option ReadError :=
  let left := message.length - offset T lengths start k
  if left < widthAt T lengths (start + k) then
    some (.truncated (widthAt T lengths (start + k)) left)
  else if modulus T ≤ number T lengths start message k then
    some .nonCanonical
  else
    none

def takenOver (combine : Combine) (lengths : List (Option Nat)) (start : Nat) (message : Bytes)
    (count : Nat) (xs : List T) : List T :=
  xs.mapIdx fun k x =>
    if k < count then combine.apply x (ofNat (number T lengths start message k)) else x

section

variable (T lengths) (start : Nat) (message : Bytes) (k : Nat)

omit [Written T] in
theorem offset_succ : offset T lengths start (k + 1) =
    widthAt T lengths start + offset T lengths (start + 1) k := by
  rw [offset, List.range_succ_eq_map, List.map_cons, List.sum_cons, List.map_map]
  congr 2
  refine List.map_congr_left fun j _ => ?_
  rw [Function.comp_apply, Nat.succ_eq_add_one, Nat.add_right_comm]
  rfl

omit [Written T] in
theorem number_succ : number T lengths start message (k + 1) =
    number T lengths (start + 1) (message.drop (widthAt T lengths start)) k := by
  have hshift : start + (k + 1) = start + 1 + k := by omega
  rw [number, number, offset_succ, List.drop_drop, hshift]

theorem fault_succ : fault? T lengths start message (k + 1) =
    fault? T lengths (start + 1) (message.drop (widthAt T lengths start)) k := by
  have hshift : start + (k + 1) = start + 1 + k := by omega
  rw [fault?, fault?, number_succ, offset_succ, List.length_drop, Nat.sub_sub, hshift]

end

theorem takenOver_cons (combine : Combine) (start : Nat) (message : Bytes) (count : Nat) (x : T)
    (xs : List T) : takenOver combine lengths start message (count + 1) (x :: xs) =
      combine.apply x (ofNat (number T lengths start message 0)) ::
        takenOver combine lengths (start + 1) (message.drop (widthAt T lengths start)) count xs := by
  simp only [takenOver, List.mapIdx_cons, Nat.zero_lt_succ, if_true, number_succ,
    Nat.add_lt_add_iff_right]

theorem takenOver_zero (combine : Combine) (start : Nat) (message : Bytes) (xs : List T) :
    takenOver combine lengths start message 0 xs = xs :=
  List.ext_getElem (by simp [takenOver]) fun k _ _ => by simp [takenOver]

theorem ofBytes_eq_ofNat {bs : Bytes} (hlen : bs.length ≤ size T)
    (h : ofLittleEndian bs < modulus T) : (ofBytes bs : T) = ofNat (ofLittleEndian bs) :=
  rep_inj _ _ (by rw [Written.rep_ofBytes bs hlen, rep_ofNat, Nat.mod_eq_of_lt h])

section

variable (hfits : Fits T lengths) {start : Nat} {b : Buffer}
include hfits

theorem unpack_run (b : Buffer) : ∃ b', (unpack (lengths.getD start none) : Reader T).run b =
      ((fault? T lengths start b.unread 0).elim
        (.ok (ofNat (number T lengths start b.unread 0))) .error, b') ∧
    (fault? T lengths start b.unread 0 = none →
      b'.unread = b.unread.drop (widthAt T lengths start)) := by
  have hdeclared : declaredLength (size T) (lengths.getD start none) =
      .ok (widthAt T lengths start) := declaredLength_width (hfits.widthAt_le start)
  rw [unpack_run_of_declared hdeclared, ← Buffer.length_unread]
  simp only [fault?, number, offset, List.range_zero, List.map_nil, List.sum_nil, Nat.sub_zero,
    List.drop_zero, Nat.add_zero]
  by_cases hshort : b.unread.length < widthAt T lengths start
  · rw [if_pos hshort, if_neg (Nat.not_le.mpr hshort)]
    exact ⟨b, rfl, nofun⟩
  · rw [if_neg hshort, if_pos (Nat.not_lt.mp hshort)]
    have hlen : (b.unread.take (widthAt T lengths start)).length ≤ size T :=
      (List.length_take_le _ _).trans (hfits.widthAt_le start)
    have hcan : isCanonical (ofBytes (b.unread.take (widthAt T lengths start)) : T) = true ↔
        ofLittleEndian (b.unread.take (widthAt T lengths start)) < modulus T := by
      rw [Written.isCanonical_iff, Written.rep_ofBytes _ hlen]
    by_cases hnumber : ofLittleEndian (b.unread.take (widthAt T lengths start)) < modulus T
    · rw [if_neg (Nat.not_le.mpr hnumber), if_pos (hcan.mpr hnumber),
        ofBytes_eq_ofNat hlen hnumber]
      exact ⟨_, rfl, fun _ => Buffer.unread_advance b _⟩
    · rw [if_pos (Nat.not_lt.mp hnumber), if_neg (mt hcan.mp hnumber)]
      exact ⟨_, rfl, nofun⟩

theorem readOne_fault (combine : Combine) (x : T) {e : ReadError}
    (h : fault? T lengths start b.unread 0 = some e) :
    ∃ b', (readOne combine (lengths.getD start none) x).run b = (.error e, b') := by
  obtain ⟨b', hrun, -⟩ := unpack_run hfits b
  rw [h] at hrun
  cases combine with
  | add => exact ⟨b', Reader.run_bind_error hrun⟩
  | replace => exact ⟨b', hrun⟩

theorem readOne_of_no_fault (combine : Combine) (x : T)
    (h : fault? T lengths start b.unread 0 = none) :
    ∃ b', (readOne combine (lengths.getD start none) x).run b =
        (.ok (combine.apply x (ofNat (number T lengths start b.unread 0))), b') ∧
      b'.unread = b.unread.drop (widthAt T lengths start) := by
  obtain ⟨b', hrun, hrest⟩ := unpack_run hfits b
  rw [h] at hrun
  cases combine with
  | add => exact ⟨b', Reader.run_bind hrun, hrest h⟩
  | replace => exact ⟨b', hrun, hrest h⟩

/-- The first fault ends the reading of a list, and what came before it has been taken over. -/
theorem absorb_fault (combine : Combine) (start : Nat) (xs : List T) (b : Buffer) {k : Nat}
    (hk : k < xs.length) (hbefore : ∀ j < k, fault? T lengths start b.unread j = none)
    {e : ReadError} (he : fault? T lengths start b.unread k = some e) :
    absorb combine (lengths.drop start) xs b =
      (.error e, takenOver combine lengths start b.unread k xs) := by
  induction xs generalizing start b k with
  | nil => cases hk
  | cons x xs ih =>
    rw [absorb, headD_drop, List.tail_drop]
    cases k with
    | zero =>
      obtain ⟨b', hrun⟩ := readOne_fault hfits combine x he
      rw [hrun, takenOver_zero]
    | succ k =>
      obtain ⟨b', hrun, hrest⟩ := readOne_of_no_fault hfits combine x
        (hbefore 0 (Nat.succ_pos k))
      have hrec := ih (start + 1) b' (Nat.lt_of_succ_lt_succ hk)
        (fun j hj => by rw [hrest, ← fault_succ]; exact hbefore (j + 1) (Nat.succ_lt_succ hj))
        (by rw [hrest, ← fault_succ]; exact he)
      rw [hrun, takenOver_cons, ← hrest]
      simp only [hrec]

theorem absorb_of_no_fault (combine : Combine) (start : Nat) (xs : List T) (b : Buffer)
    (hall : ∀ j < xs.length, fault? T lengths start b.unread j = none) :
    absorb combine (lengths.drop start) xs b =
      (ReadError.report (ending? (b.unread.drop (offset T lengths start xs.length))),
        takenOver combine lengths start b.unread xs.length xs) := by
  induction xs generalizing start b with
  | nil =>
    rw [absorb, Buffer.close_run]
    rfl
  | cons x xs ih =>
    obtain ⟨b', hrun, hrest⟩ := readOne_of_no_fault hfits combine x
      (hall 0 (Nat.succ_pos _))
    have hrec := ih (start + 1) b' fun j hj => by
      rw [hrest, ← fault_succ]
      exact hall (j + 1) (Nat.succ_lt_succ hj)
    have hdrop : b.unread.drop (offset T lengths start (xs.length + 1)) =
        b'.unread.drop (offset T lengths (start + 1) xs.length) := by
      rw [offset_succ, hrest, List.drop_drop]
    rw [absorb, headD_drop, List.tail_drop, hrun, List.length_cons, takenOver_cons, hdrop, ← hrest]
    simp only [hrec]

end

theorem absorbRange_of_absorb {combine : Combine} {start stop : Nat} (hle : start ≤ stop)
    {xs : List T} (hstop : stop ≤ xs.length) {message : Bytes} {r : Except ReadError Unit}
    {count : Nat}
    (h : absorb combine (lengths.drop start) ((xs.drop start).take (stop - start))
      (.ofBytes message) = (r, takenOver combine lengths start message count
        ((xs.drop start).take (stop - start)))) :
    absorbRange combine lengths start stop xs message = (r, xs.take start ++
      takenOver combine lengths start message count ((xs.drop start).take (stop - start)) ++
        xs.drop stop) := by
  have hlen : (takenOver combine lengths start message count
      ((xs.drop start).take (stop - start))).length = stop - start := by
    rw [takenOver, List.length_mapIdx, length_slice hstop]
  rw [absorbRange, h]
  simp only [hlen, Nat.add_sub_cancel' hle]

/-- The first value of a range that cannot be read decides what is reported, and if there is none,
then what comes behind the last. Just the values before the first fault have been taken over, each as
the number that its bytes spell. -/
theorem absorbRange_faults (hfits : Fits T lengths) {start stop : Nat} (hle : start ≤ stop)
    {xs : List T} (hstop : stop ≤ xs.length) (combine : Combine) (message : Bytes) :
    (∀ k < stop - start, (∀ j < k, fault? T lengths start message j = none) →
      ∀ e, fault? T lengths start message k = some e →
        absorbRange combine lengths start stop xs message = (.error e, xs.take start ++
          takenOver combine lengths start message k ((xs.drop start).take (stop - start)) ++
            xs.drop stop)) ∧
    ((∀ j < stop - start, fault? T lengths start message j = none) →
      absorbRange combine lengths start stop xs message =
        (ReadError.report (ending? (message.drop (offset T lengths start (stop - start)))),
          xs.take start ++ takenOver combine lengths start message (stop - start)
            ((xs.drop start).take (stop - start)) ++ xs.drop stop)) := by
  have hrange : ((xs.drop start).take (stop - start)).length = stop - start := length_slice hstop
  have hunread : (Buffer.ofBytes message).unread = message := Buffer.unread_ofBytes message
  refine ⟨fun k hk hbefore e he => ?_, fun hall => ?_⟩
  · have h := absorb_fault hfits combine start ((xs.drop start).take (stop - start))
      (.ofBytes message) (k := k) (by rwa [hrange]) (by rwa [hunread]) (by rwa [hunread])
    rw [hunread] at h
    exact absorbRange_of_absorb hle hstop h
  · have h := absorb_of_no_fault hfits combine start ((xs.drop start).take (stop - start))
      (.ofBytes message) (by rwa [hrange, hunread])
    rw [hunread, hrange] at h
    exact absorbRange_of_absorb hle hstop h

/-- The third of three values is not canonical, and the two before it have been added. -/
theorem absorbRange_faults_third : Fits Mersenne61 [none, some 1, some 2] ∧ 1 ≤ 4 ∧
    4 ≤ [(⟨9⟩ : Mersenne61), ⟨9⟩, ⟨9⟩, ⟨9⟩].length ∧
    absorbRange .add [none, some 1, some 2] 1 4 [(⟨9⟩ : Mersenne61), ⟨9⟩, ⟨9⟩, ⟨9⟩]
      [7, 1, 2, 255, 255, 255, 255, 255, 255, 255, 255, 0] =
        (.error .nonCanonical, [⟨9⟩, ⟨16⟩, ⟨522⟩, ⟨9⟩]) := by
  have hfits : Fits Mersenne61 [none, some 1, some 2] := by decide
  refine ⟨hfits, by decide, by decide, ?_⟩
  exact (absorbRange_faults hfits (by decide) (by decide) .add
    [7, 1, 2, 255, 255, 255, 255, 255, 255, 255, 255, 0]).1 2 (by decide) (by decide) _ rfl

end Message

end AuthShares
