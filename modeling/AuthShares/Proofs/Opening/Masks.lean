import AuthShares.Proofs.Opening.Combinations

/-!
# The check of low halves

Honest players that check low halves open one masked combination of their full shares. Its
authentication is always right. So the outcome depends on the low part alone: the check
passes just if the combination of what the openings are wrong by vanishes there.
-/

set_option autoImplicit false

namespace AuthShares

open scoped BigOperators

variable {n m : Nat} {capacity : Option Nat} {T : Type}

structure RingOpener.Awaits [MacElement T] {key : Fin n → T} (o : Fin n → RingOpener T)
    (x : Fin m → Sharing T key) (v : Fin m → T) (mask : Sharing T key) (a : Aggregator) :
    Prop where
  keyShare (i : Fin n) : (o i).base.keyShare = key i
  values (i : Fin n) : (o i).base.waitingValues = List.ofFn v
  macs (i : Fin n) : (o i).base.waitingMacs = List.ofFn fun k => ((x k).share i).mac
  shares (i : Fin n) : (o i).waitingShares = List.ofFn fun k => ((x k).share i).value
  masks (i : Fin n) : ∃ rest, (o i).masks = some (mask.share i :: rest)
  aggregator (i : Fin n) : ∃ packed, (o i).base.aggregator = { a with packed }

namespace RingOpener

open AuthShares.Modular

variable [RingElement T] [ModularRing T] {key : Fin n → T}

omit [ModularRing T] in
theorem Awaits.holds {o : Fin n → RingOpener T} {x : Fin m → Sharing T key}
    {v : Fin m → T} {mask : Sharing T key} {a : Aggregator} (h : Awaits o x v mask a)
    (hkey : ∀ i, Element.isCanonical (key i)) (hv : ∀ k, Element.isCanonical (v k)) :
    Holds o key v (fun i k => ((x k).share i).value) (fun i k => ((x k).share i).mac)
      mask.share a where
  keyShare := h.keyShare
  values := h.values
  macs := h.macs
  shares := h.shares
  masks := h.masks
  aggregator := h.aggregator
  key_canonical := hkey
  value_canonical := hv
  share_canonical i k := (x k).value_canonical i
  mac_canonical i k := (x k).mac_canonical i

def deviation (x : Fin m → Sharing T key) (v : Fin m → T) (g : Generator) :
    ZMod (ModularRing.shown T) :=
  ∑ k : Fin m, Modular.residue (ModularRing.shown T) (stream (T := T) RingElement.challenge k g) *
    (Modular.residue (ModularRing.shown T) (x k).secret -
      Modular.residue (ModularRing.shown T) (v k))

theorem maskedSum_mac (hkey : ∀ i, Element.isCanonical (key i)) (x : Fin m → Sharing T key)
    (mask : Sharing T key) (chi : Fin m → T) :
    maskedSum chi (fun i k => ((x k).share i).mac) (fun i => (mask.share i).mac) =
      (∑ i, residue (modulus T) (key i)) *
        maskedSum chi (fun i k => ((x k).share i).value) fun i => (mask.share i).value := by
  have hterm : ∀ k, residue (modulus T) (chi k) * ∑ i, residue (modulus T) ((x k).share i).mac =
      (∑ i, residue (modulus T) (key i)) *
        (residue (modulus T) (chi k) * ∑ i, residue (modulus T) ((x k).share i).value) :=
    fun k => by rw [(x k).sum_mac hkey dvd_rfl, (x k).sum_value dvd_rfl, mul_left_comm]
  rw [maskedSum, maskedSum, combinedSum, combinedSum, Finset.sum_congr rfl fun k _ => hterm k,
    ← Finset.mul_sum, mask.sum_mac hkey dvd_rfl, mask.sum_value dvd_rfl, mul_add, mul_left_comm]

theorem verdict_of_sharings (hkey : ∀ i, Element.isCanonical (key i)) (x : Fin m → Sharing T key)
    (v : Fin m → T) (mask : Sharing T key) (g : Generator) :
    verdict key v (fun i k => ((x k).share i).value) (fun i k => ((x k).share i).mac) mask.share
        (challenges m g) =
      if deviation x v g = 0 then .ok () else .error .inconsistentOpening := by
  have hdeviation : combinedSum (ModularRing.shown T) (challenges m g)
        (fun i k => ((x k).share i).value) =
      ∑ k, residue (ModularRing.shown T) (challenges (T := T) m g k) *
        residue (ModularRing.shown T) (v k) ↔ deviation x v g = 0 := by
    simp only [combinedSum, deviation, (x _).sum_value ModularRing.shown_dvd, mul_sub]
    rw [Finset.sum_sub_distrib, sub_eq_zero]
    rfl
  simp only [verdict, hdeviation, maskedSum_mac hkey x mask, if_true]

variable [Wire T] [LawfulWire T] [DecidableEq T]

/-- The check of openings that wait with sharings passes just if they do not deviate, and
fails for the low parts if they do. It uses up one mask. -/
theorem check_spends (hcap : capacity ≠ some 0) (hpos : 0 < n) (hn : 2 * n < wordRange)
    (hkey : ∀ i, Element.isCanonical (key i)) (hm : 0 < m) {o : Fin n → RingOpener T}
    {x : Fin m → Sharing T key} {v : Fin m → T} (hv : ∀ k, Element.isCanonical (v k))
    {mask : Sharing T key} {a : Aggregator} (h : Awaits o x v mask a)
    {rest : Fin n → List (Share T)}
    (hrest : ∀ i, (o i).masks = some (mask.share i :: rest i)) (t : Fin n → Tape) :
    ∃ (packed' : Fin n → Bytes) (t' : Fin n → Tape), World.Together capacity
      (fun i => (check (Player.numbered i)).run.run (o i)) t
      (fun i => (if deviation x v (Interaction.commonCoins t) = 0 then .ok ()
        else .error .inconsistentOpening, (o i).spent (rest i) { a with packed := packed' i }))
      t' := by
  have hholds := h.holds hkey hv
  obtain ⟨packed', t', htog⟩ := hholds.check_together hcap hpos hn hm hrest t
  rw [hholds.judged_eq, verdict_of_sharings hkey] at htog
  exact ⟨packed', t', htog⟩

theorem check_together (hcap : capacity ≠ some 0) (hpos : 0 < n) (hn : 2 * n < wordRange)
    (hkey : ∀ i, Element.isCanonical (key i)) (hm : 0 < m) {o : Fin n → RingOpener T}
    {x : Fin m → Sharing T key} {v : Fin m → T} (hv : ∀ k, Element.isCanonical (v k))
    {mask : Sharing T key} {a : Aggregator} (h : Awaits o x v mask a) (t : Fin n → Tape) :
    ∃ (o' : Fin n → RingOpener T) (t' : Fin n → Tape), World.Together capacity
      (fun i => (check (Player.numbered i)).run.run (o i)) t
      (fun i => (if deviation x v (Interaction.commonCoins t) = 0 then .ok ()
        else .error .inconsistentOpening, o' i)) t' := by
  choose rest hrest using h.masks
  obtain ⟨packed', t', htog⟩ := check_spends hcap hpos hn hkey hm hv h hrest t
  exact ⟨_, t', htog⟩

end RingOpener

end AuthShares
