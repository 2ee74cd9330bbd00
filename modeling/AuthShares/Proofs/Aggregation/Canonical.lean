import AuthShares.Proofs.Aggregation.Compositions
import AuthShares.Proofs.Aggregation.Spelling

/-!
# Sums of canonical values

Elements that are not canonical are refused when a message is unpacked. So values that are canonical
stay so in a sum, whatever the messages are and wherever it is cut off.
-/

set_option autoImplicit false

namespace AuthShares

variable {T : Type}

theorem Element.unpack_canonical [Element T] {len : Option Nat} {b b' : Buffer} {y : T}
    (h : (unpack len : Reader T).run b = (.ok y, b')) : isCanonical y := by
  obtain ⟨_, -, -, hcan, -⟩ := unpack_ok_iff.mp h
  exact hcan

variable [MacElement T] [Modular T]

namespace Message

theorem readOne_canonical {combine : Combine} {len : Option Nat} {x y : T} {b b' : Buffer}
    (hx : Element.isCanonical x) (h : (readOne combine len x).run b = (.ok y, b')) :
    Element.isCanonical y := by
  cases combine with
  | add =>
    obtain ⟨z, b₁, hz, h⟩ := Reader.bind_ok h
    cases h
    exact Modular.add_canonical hx (Element.unpack_canonical hz)
  | replace => exact Element.unpack_canonical h

theorem absorb_canonical (combine : Combine) (lengths : List (Option Nat)) {xs : List T}
    (hxs : ∀ x ∈ xs, Element.isCanonical x) (b : Buffer) :
    ∀ y ∈ (absorb combine lengths xs b).2, Element.isCanonical y := by
  induction xs generalizing lengths b with
  | nil => exact fun y hy => absurd hy List.not_mem_nil
  | cons x xs ih =>
    have hrest : ∀ y ∈ xs, Element.isCanonical y := fun y hy => hxs y (by simp [hy])
    rw [absorb]
    split
    · rename_i z b' hz
      intro y hy
      rcases List.mem_cons.mp hy with rfl | hy
      · exact readOne_canonical (hxs x (by simp)) hz
      · exact ih lengths.tail hrest b' y hy
    · exact hxs

theorem absorbRange_canonical (combine : Combine) (lengths : List (Option Nat)) (start stop : Nat)
    {xs : List T} (hxs : ∀ x ∈ xs, Element.isCanonical x) (message : Bytes) :
    ∀ y ∈ (absorbRange combine lengths start stop xs message).2, Element.isCanonical y := by
  intro y hy
  simp only [absorbRange, List.mem_append] at hy
  obtain (hy | hy) | hy := hy
  · exact hxs y (List.mem_of_mem_take hy)
  · refine absorb_canonical combine (lengths.drop start) (fun x hx => ?_) _ y hy
    exact hxs x (List.mem_of_mem_drop (List.mem_of_mem_take hx))
  · exact hxs y (List.mem_of_mem_drop hy)

end Message

/-- Canonical values stay canonical, whatever an action comes to. -/
theorem Summation.canonical_compositional (lengths : List (Option Nat)) :
    Compositional lengths fun _ => Changes (T := T) fun xs ys =>
      (∀ x ∈ xs, Element.isCanonical x) → ∀ y ∈ ys, Element.isCanonical y :=
  Changes.compositional (fun _ h => h) (fun _ _ _ h h' hxs => h' (h hxs))
    fun combine start stop _ message hxs =>
      Message.absorbRange_canonical combine lengths start stop hxs message

end AuthShares
