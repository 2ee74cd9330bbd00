import AuthShares.Proofs.Aggregation.Lengths
import AuthShares.Proofs.Opening.Batches

/-!
# Partial sums in the ring

Numbers that are cut to some low bytes, added and cut again keep their sum modulo what
these bytes can count, whatever is carried out of them on the way. So for any declared
lengths every player ends with the sums of all inputs in the declared bytes, around
whatever topology they went and also if they were sent to everyone.
-/

set_option autoImplicit false

namespace AuthShares

open scoped BigOperators

variable {n : Nat} {lengths : List (Option Nat)} {x : Fin n → List Ring128}

namespace Ring128

theorem accuracy_eq {len : Option Nat} (h : Element.width Ring128 len ≤ 16) :
    Element.accuracy Ring128 len = 2 ^ (8 * len.getD 16) := by
  have hbytes : byteRange (Element.width Ring128 len) = 2 ^ (8 * len.getD 16) := by
    rw [byteRange_eq_pow, show 256 = 2 ^ 8 from rfl, ← Nat.pow_mul]
    rfl
  unfold Element.accuracy
  split
  · rename_i hfull
    rw [← hbytes, hfull]
    rfl
  · rw [hbytes]
    refine Nat.gcd_eq_right (Nat.pow_dvd_pow 2 ?_)
    have hle : len.getD 16 ≤ 16 := h
    omega

structure PartialSums (lengths : List (Option Nat)) (x : Fin n → List Ring128)
    (v : List Ring128) : Prop where
  length : v.length = lengths.length
  congruent (k : Nat) (hk : k < lengths.length) : (v.getD k 0).bits.toNat ≡
    ∑ j, ((x j).getD k 0).bits.toNat [MOD 2 ^ (8 * (lengths.getD k none).getD 16)]

theorem partialSums_of_shows (hfits : Element.Fits Ring128 lengths) {v : List Ring128}
    (h : Shows (fun k => Element.accuracy Ring128 (lengths.getD k none)) lengths.length x v
      fun _ => Finset.univ) : PartialSums lengths x v where
  length := h.length
  congruent k hk := by
    have hres := h.residue k hk
    rw [← accuracy_eq (hfits.widthAt_le k), ← ZMod.natCast_eq_natCast_iff, Nat.cast_sum]
    exact hres

end Ring128

/-- In whatever order the players move, all of them get the sums in the declared bytes: from
the aggregation of every configuration, and when shares are sent to everyone. -/
theorem partialSums_endsIn (c : Config) (hpos : 0 < n) (hn : n < 2 ^ 62)
    (lengths : List (Option Nat)) (hfits : ∀ len ∈ lengths, ∀ l, len = some l → l ≤ 16)
    (x : Fin n → List Ring128) (hlen : ∀ i, (x i).length = lengths.length)
    (o : Fin n → Opener Ring128) (hmode : ∀ i, (o i).mode = .direct)
    (hopened : ∀ i, (o i).opened = x i) (hlengths : ∀ i, (o i).lengths = lengths)
    (t : Fin n → Tape) :
    (∃ (v : Fin n → List Ring128) (packed : Fin n → Bytes), World.EndsIn none
        (World.start (fun i => (Aggregator.sum (Player.numbered i) lengths (x i)).run.run
          (.ofConfig c)) t .empty)
        (World.start (fun i => .done (.ok (v i),
          { Aggregator.ofConfig c with packed := packed i })) t .empty) ∧
      ∀ i, Ring128.PartialSums lengths x (v i)) ∧
    ∃ v : Fin n → List Ring128, World.EndsIn none
        (World.start (fun i => (Opener.exchangeShares (Player.numbered i)).run.run (o i)) t .empty)
        (World.start (fun i => .done (.ok (), { o i with opened := v i })) t .empty) ∧
      ∀ i, Ring128.PartialSums lengths x (v i) := by
  have hwords : 2 * n < wordRange := by
    unfold wordRange
    omega
  have hcap : (none : Option Nat) ≠ some 0 := by simp
  have hfit : Element.Fits Ring128 lengths := by
    intro len hl
    cases len with
    | none => exact le_rfl
    | some l => exact hfits _ hl l rfl
  have hcan : ∀ i, ∀ y ∈ x i, Element.isCanonical y := fun _ _ _ => rfl
  have hfaithful := hfit.faithful lengths.length x
  have hused : Faithful Ring128 (Aggregator.usedLengths lengths.length lengths)
      (fun k => Element.accuracy Ring128 (lengths.getD k none)) lengths.length x := by
    rw [Aggregator.usedLengths, if_pos rfl]
    exact hfaithful
  constructor
  · obtain ⟨v, packed, htog, hv⟩ := Aggregator.sum_together hcap hpos hwords
      (Aggregator.ofConfig c) hused hlen hcan (fun _ => []) t
    exact ⟨v, packed, htog.endsIn, fun i => Ring128.partialSums_of_shows hfit (hv i)⟩
  · obtain ⟨v, htog, hv⟩ := Opener.sumShares_direct hcap hmode hfaithful
      (Summation.checkLengths_eq_ok_iff.mpr hfit) hlen hcan hopened hlengths t
    exact ⟨v, World.Together.endsIn (Opener.exchangeShares_of_sums htog),
      fun i => Ring128.partialSums_of_shows hfit (hv i)⟩

theorem partialSums_endsIn_two : 0 < 2 ∧ 2 < 2 ^ 62 ∧
    ∃ (v : Fin 2 → List Ring128) (packed : Fin 2 → Bytes), World.EndsIn none
        (World.start (fun i => (Aggregator.sum (Player.numbered i) [some 1, none]
          [(⟨200⟩ : Ring128), .ofNat (2 ^ 127)]).run.run (.ofConfig .default))
          (fun _ _ => Vector.replicate 32 0) .empty)
        (World.start (fun i => .done (.ok (v i),
          { Aggregator.ofConfig .default with packed := packed i }))
          (fun _ _ => Vector.replicate 32 0) .empty) ∧
      ∀ i, Ring128.PartialSums [some 1, none] (fun _ : Fin 2 => [⟨200⟩, .ofNat (2 ^ 127)])
        (v i) := by
  refine ⟨by decide, by decide, ?_⟩
  have h := partialSums_endsIn .default (n := 2) (by decide) (by decide) [some 1, none] (by simp)
    (fun _ => [⟨200⟩, .ofNat (2 ^ 127)]) (by simp)
    (fun _ => { Opener.new .direct 0 .default with
      opened := [⟨200⟩, .ofNat (2 ^ 127)], lengths := [some 1, none] })
    (fun _ => rfl) (fun _ => rfl) (fun _ => rfl) (fun _ _ => Vector.replicate 32 0)
  exact h.1

end AuthShares
