import AuthShares.Proofs.Aggregation.Lengths
import AuthShares.Proofs.Opening.Masks

/-!
# Low halves of a batch

The low bytes of shares that are sent sum to something with the low half of the secret,
whatever carries into the upper half at each player. The values that are recorded are the
low halves of the secrets, so that a check with a mask never finds them inconsistent.
-/

set_option autoImplicit false

namespace AuthShares

open scoped BigOperators

variable {n m : Nat} {capacity : Option Nat}

namespace Ring128

theorem packed_visible (y : Ring128) :
    Element.packed (some (RingElement.visibleBytes Ring128)) y = toLittleEndian 8 y.bits.toNat :=
  Element.packed_eq (by decide) y

theorem arrival_visible (y : Ring128) :
    Element.arrival (some (RingElement.visibleBytes Ring128)) y = RingElement.low y := by
  show ofNat (ofLittleEndian (Element.packed _ y)) = _
  rw [packed_visible, ofLittleEndian_toLittleEndian, low_eq_ofNat]
  rfl

end Ring128

theorem faithful_visible {lengths : List (Option Nat)} (hlen : lengths.length = m)
    (h : ∀ len ∈ lengths, len = some (RingElement.visibleBytes Ring128))
    (x : Fin n → List Ring128) :
    Faithful Ring128 lengths (fun _ => ModularRing.shown Ring128) m x := by
  have hvisible : ∀ k < m, lengths.getD k none = some (RingElement.visibleBytes Ring128) := by
    intro k hk
    rw [List.getD_eq_getElem _ _ (by omega)]
    exact h _ (List.getElem_mem _)
  refine ⟨fun _ => ModularRing.shown_dvd, fun k hk y _ => ?_, fun k hk y _ _ _ => ?_⟩
  · rw [hvisible k hk]
    refine ⟨?_, rfl⟩
    rw [Ring128.packed_visible, length_toLittleEndian]
    rfl
  · rw [hvisible k hk, Ring128.arrival_visible, ModularRing.residue_low]

variable {key : Fin n → Ring128}

theorem Sharing.lows_eq {b : List (Sharing Ring128 key)} {v : List Ring128}
    (h : Shows (fun _ => ModularRing.shown Ring128) b.length
      (fun j => b.map fun s => (s.share j).value) v fun _ => Finset.univ) :
    v.map RingElement.low = b.map fun s => RingElement.low s.secret := by
  refine List.ext_getElem (by simp [h.length]) fun k hk hk' => ?_
  have hkv : k < v.length := by simpa using hk
  have hkb : k < b.length := h.length ▸ hkv
  have hres := h.residue k hkb
  rw [List.getD_eq_getElem _ _ hkv] at hres
  rw [List.getElem_map, List.getElem_map, ModularRing.low_eq_low_iff, hres,
    ← Sharing.sum_value _ ModularRing.shown_dvd]
  refine Finset.sum_congr rfl fun j _ => ?_
  rw [List.getD_eq_getElem _ _ (by simpa using hkb), List.getElem_map]

theorem Accord.tryCatch {σ α : Type} {m : Fin n → Action σ α} {s s' : Fin n → σ}
    {t t' : Fin n → Tape} {a : Fin n → α} (h : Accord capacity m s t a s' t')
    (handle : Error → Action σ α) :
    Accord capacity (fun i => MonadExcept.tryCatch (m i) handle) s t a s' t' :=
  World.Together.bind h (World.Together.pure _ t')

namespace RingOpener

variable {o : Fin n → RingOpener Ring128} {a : Aggregator} {mode : ExchangeMode}

/-- A batch of sharings is opened in its low halves. -/
theorem exchangeShares_accord (hcap : capacity ≠ some 0) (hpos : 0 < n) (hn : 2 * n < wordRange)
    (hmode : ∀ i, (o i).base.mode = mode)
    (ha : ∀ i, ∃ packed, (o i).base.aggregator = { a with packed })
    (b : List (Sharing Ring128 key))
    (hopened : ∀ i, (o i).base.opened = b.map fun s => (s.share i).value)
    (hlengths : ∀ i, (o i).base.lengths = b.map fun _ =>
      some (RingElement.visibleBytes Ring128)) (t : Fin n → Tape) :
    ∃ (v : Fin n → List Ring128) (aggregator : Fin n → Aggregator), Accord capacity
        (fun i => exchangeShares (Player.numbered i)) o t (fun _ => ())
        (fun i => { o i with
          base := { (o i).base with opened := v i, aggregator := aggregator i } }) t ∧
      (∀ i, (v i).map RingElement.low = b.map fun s => RingElement.low s.secret) ∧
      ∀ i, ∃ packed, aggregator i = { a with packed } := by
  have hvisible : ∀ len ∈ b.map (fun _ => some (RingElement.visibleBytes Ring128)),
      len = some (RingElement.visibleBytes Ring128) := fun len h => by
    obtain ⟨_, -, rfl⟩ := List.mem_map.mp h
    rfl
  obtain ⟨v, aggregator, hacc, hv, ha'⟩ := Opener.exchangeShares_shows hcap hpos hn hmode ha
    (faithful_visible (List.length_map _) hvisible _) (List.length_map _)
    (fun _ => List.length_map _) (Sharing.values_canonical b) hopened hlengths t
  exact ⟨v, aggregator, Accord.tryCatch (Accord.zoom hacc) _, fun i => Sharing.lows_eq (hv i), ha'⟩

theorem deviation_low (x : Fin m → Sharing Ring128 key) (g : Generator) :
    deviation x (fun k => RingElement.low (x k).secret) g = 0 := by
  refine Finset.sum_eq_zero fun k _ => ?_
  rw [ModularRing.residue_low, sub_self, mul_zero]

end RingOpener

end AuthShares
