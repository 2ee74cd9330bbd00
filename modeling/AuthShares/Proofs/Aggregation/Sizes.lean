import AuthShares.Proofs.Aggregation.Compositions

/-!
# Sums keep the number of values

Whatever other parties send, and also when a sum fails on the way, there are as many
values after it as before.
-/

set_option autoImplicit false

namespace AuthShares

variable {T : Type} [Element T]

theorem Message.length_absorb (combine : Combine) (lengths : List (Option Nat)) (xs : List T)
    (b : Buffer) : (absorb combine lengths xs b).2.length = xs.length := by
  induction xs generalizing lengths b with
  | nil => rfl
  | cons x xs ih =>
    rw [absorb]
    split
    · simp [ih]
    · rfl

theorem Message.length_absorbRange (combine : Combine) (lengths : List (Option Nat))
    (start stop : Nat) (xs : List T) (message : Bytes) :
    (absorbRange combine lengths start stop xs message).2.length = xs.length := by
  have h := length_absorb combine (lengths.drop start) ((xs.drop start).take (stop - start))
    (.ofBytes message)
  simp only [absorbRange, List.length_append, h, List.length_take, List.length_drop]
  omega

theorem Summation.sizes_compositional (lengths : List (Option Nat)) :
    Compositional lengths fun _ => Changes (T := T) fun xs ys => ys.length = xs.length :=
  Changes.compositional (R := fun xs ys => ys.length = xs.length) (fun _ => rfl)
    (fun _ _ _ h h' => h'.trans h) fun combine start stop xs message =>
      Message.length_absorbRange combine lengths start stop xs message

end AuthShares
