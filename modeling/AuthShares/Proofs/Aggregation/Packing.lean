import AuthShares.Proofs.Aggregation.Compositions
import AuthShares.Proofs.Network.Likeness
import AuthShares.Proofs.Network.Outcomes

/-!
# The message packed last

An aggregator keeps the message that it packed last. A sum writes it and changes nothing else of
the aggregator, and nothing ever reads it: aggregators that differ in it only come to the same.
-/

set_option autoImplicit false

namespace AuthShares

open Action (Keeps)

variable {T : Type} [Element T]

def Aggregator.Repacked (a a' : Aggregator) : Prop := ∃ packed, a' = { a with packed }

namespace Aggregator.Repacked

variable {a b c : Aggregator}

theorem refl (a : Aggregator) : a.Repacked a := ⟨a.packed, rfl⟩

end Aggregator.Repacked

def Summation.SameValues (s s' : Summation T) : Prop := s.values = s'.values

theorem Summation.SameValues.compositional (lengths : List (Option Nat)) :
    Compositional lengths fun _ => Keeps (SameValues (T := T)) where
  pure := .pure
  bind := .bind
  size heq hf := .read fun s s' h => ⟨heq s s' (congrArg List.length h), hf s'⟩
  link := .link
  ofReadResult := .ofReadResult
  pack start stop s s' h := by
    have hmessage := congrArg (Message.encodeRange lengths start stop) h
    exact .done ⟨congrArg Except.ok hmessage, h⟩
  absorb combine start stop message s s' h := by
    have hvalues : s.values = s'.values := h
    rw [run_absorb, run_absorb, hvalues]
    exact Keeps.ofReadResult _ _ _ rfl

namespace Aggregator

variable {player : Player} {lengths : List (Option Nat)} {values : List T} {value : T}
  {a a' : Aggregator}

theorem sumEach_returns {x : (Except Error Unit × List T) × Aggregator}
    (h : (sumEach player lengths values a).Returns x) : a.Repacked x.2 := by
  obtain ⟨⟨r, s⟩, -, hdone⟩ := (Protocol.returns_bind
    ((exchange a player lengths).run.run (⟨a.packed, values⟩ : Summation T)) _ _).mp h
  cases hdone
  exact ⟨s.packed, rfl⟩

theorem sumOne_ends {r : Except Error T} (h : (sumOne player value).Ends a r a') :
    a.Repacked a' := by
  obtain ⟨r', hsum, -⟩ := Action.ends_bind_pure.mp h
  obtain ⟨⟨⟨total, sums⟩, u⟩, heach, hdone⟩ :=
    (Protocol.returns_bind (sumEach player [] [value] a) _ _).mp hsum
  cases hdone
  exact sumEach_returns heach

theorem sumEach_rel (h : a.Repacked a') :
    (sumEach player lengths values a).Rel (fun x y => x.1 = y.1 ∧ x.2.Repacked y.2)
      (sumEach player lengths values a') := by
  obtain ⟨packed, rfl⟩ := h
  refine Protocol.Rel.bind (Summation.Compositional.exchange Summation.SameValues.compositional a player lengths
    ⟨a.packed, values⟩ ⟨packed, values⟩ rfl) ?_
  rintro ⟨r, s⟩ ⟨_, s'⟩ ⟨rfl, hvalues⟩
  have hvalues : s.values = s'.values := hvalues
  exact .done ⟨by rw [hvalues], ⟨s'.packed, rfl⟩⟩

theorem sumOne_keeps (player : Player) (value : T) :
    Keeps Repacked (sumOne player value) := by
  refine Keeps.bind (fun a a' h => ?_) fun values => .pure _
  refine Protocol.Rel.bind (sumEach_rel h) ?_
  rintro ⟨⟨r, sums⟩, u⟩ ⟨_, u'⟩ ⟨rfl, hu⟩
  exact .done ⟨rfl, hu⟩

end Aggregator

end AuthShares
