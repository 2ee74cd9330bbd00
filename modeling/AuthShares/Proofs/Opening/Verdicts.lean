import AuthShares.Proofs.Element.Mersenne61
import AuthShares.Proofs.Opening.Batches
import AuthShares.Proofs.Opening.Vanishing
import Mathlib.NumberTheory.LucasLehmer

/-!
# The verdict of a check

Players can come to a check with anything: wrong values, different ones, wrong shares of
authentications. The verdict is the same for all of them, and it only depends on whether
the combination of all errors vanishes. The field elements are residues modulo a prime; so
of all challenges a false opening is accepted by just one in as many as there are elements.
-/

set_option autoImplicit false

namespace AuthShares

open scoped BigOperators

variable {n m : Nat} {capacity : Option Nat}

namespace Opener

variable {T : Type} [MacElement T] {key : Fin n → T} {v mac : Fin n → Fin m → T}
  {o : Fin n → Opener T}

structure Holds (o : Fin n → Opener T) (key : Fin n → T) (v mac : Fin n → Fin m → T) : Prop where
  keyShare (i : Fin n) : (o i).keyShare = key i
  values (i : Fin n) : (o i).waitingValues = List.ofFn (v i)
  macs (i : Fin n) : (o i).waitingMacs = List.ofFn (mac i)
  key_canonical (i : Fin n) : Element.isCanonical (key i)
  value_canonical (i : Fin n) (k : Fin m) : Element.isCanonical (v i k)
  mac_canonical (i : Fin n) (k : Fin m) : Element.isCanonical (mac i k)

theorem Holds.waiting (h : Holds o key v mac) (i : Fin n) : (o i).waiting = m := by
  rw [Opener.waiting, h.values i, h.macs i, List.length_ofFn, List.length_ofFn, max_self]

theorem Holds.zip (h : Holds o key v mac) (i : Fin n) :
    (o i).waitingValues.zip (o i).waitingMacs = List.ofFn fun k => (v i k, mac i k) := by
  rw [h.values i, h.macs i]
  exact List.ext_getElem (by simp) fun k _ _ => by simp

variable [Modular T]

open AuthShares.Modular

def totalError (key : Fin n → T) (v mac : Fin n → Fin m → T) (chi : Fin m → T) :
    ZMod (modulus T) :=
  ∑ i, ∑ k, residue (modulus T) (chi k) *
    (residue (modulus T) (mac i k) - residue (modulus T) (key i) * residue (modulus T) (v i k))

def errorShare (draw : StateM Generator T) (key : Fin n → T) (v mac : Fin n → Fin m → T)
    (g : Generator) (i : Fin n) : T :=
  weighted draw 0 (List.ofFn (mac i)) g - key i * weighted draw 0 (List.ofFn (v i)) g

def drawn (draw : StateM Generator T) (m : Nat) (g : Generator) (k : Fin m) : T := stream draw k g

variable {draw : StateM Generator T}

theorem Holds.errorShare_canonical (h : Holds o key v mac)
    (hdraw : ∀ g, Element.isCanonical (draw.run g).1) (g : Generator) (i : Fin n) :
    Element.isCanonical (errorShare draw key v mac g i) :=
  sub_canonical (weighted_ofFn_canonical hdraw (h.mac_canonical i) g)
    (mul_canonical (h.key_canonical i) (weighted_ofFn_canonical hdraw (h.value_canonical i) g))

theorem Holds.residue_errorShare (h : Holds o key v mac)
    (hdraw : ∀ g, Element.isCanonical (draw.run g).1) (g : Generator) (i : Fin n) :
    residue (modulus T) (errorShare draw key v mac g i) =
      ∑ k, residue (modulus T) (drawn draw m g k) * (residue (modulus T) (mac i k) -
        residue (modulus T) (key i) * residue (modulus T) (v i k)) := by
  have hvalues := weighted_ofFn_canonical hdraw (h.value_canonical i) g
  have hmacs := weighted_ofFn_canonical hdraw (h.mac_canonical i) g
  rw [errorShare, residue_sub dvd_rfl hmacs (mul_canonical (h.key_canonical i) hvalues),
    residue_mul dvd_rfl (h.key_canonical i) hvalues,
    residue_weighted dvd_rfl hdraw zero_canonical (h.mac_canonical i),
    residue_weighted dvd_rfl hdraw zero_canonical (h.value_canonical i),
    residue_zero dvd_rfl, zero_add, zero_add, Finset.mul_sum, ← Finset.sum_sub_distrib]
  refine Finset.sum_congr rfl fun k _ => ?_
  rw [mul_sub, mul_left_comm]
  rfl

/-- The shares of all players sum to the combination of all errors. -/
theorem Holds.isZero_total_iff (h : Holds o key v mac)
    (hdraw : ∀ g, Element.isCanonical (draw.run g).1) (g : Generator) :
    MacElement.isZero (Element.total (List.ofFn (errorShare draw key v mac g))) ↔
      totalError key v mac (drawn draw m g) = 0 := by
  have hcan := h.errorShare_canonical hdraw g
  rw [isZero_iff_residue (total_ofFn_canonical hcan), residue_total_ofFn dvd_rfl hcan, totalError,
    Finset.sum_congr rfl fun i _ => h.residue_errorShare hdraw g i]

/-- The check has one verdict for all players, and discards all values. -/
theorem checkWith_together [Wire T] [LawfulWire T] (hcap : capacity ≠ some 0)
    (hn : n < wordRange) (hm : 0 < m) (h : Holds o key v mac)
    (hdraw : ∀ g, Element.isCanonical (draw.run g).1) (t : Fin n → Tape) :
    World.Together capacity (fun i => (checkWith draw (Player.numbered i)).run.run (o i)) t
      (fun i => (if totalError key v mac (drawn draw m (Interaction.commonCoins t)) = 0 then .ok ()
        else .error .macCheckFailed, (o i).clearWaiting)) fun i => (t i).tail.tail.tail := by
  have hwaiting : ∀ i, (o i).waiting ≠ 0 := fun i => by
    rw [h.waiting i]
    omega
  have herror : ∀ g i, waitingError draw g (o i) = errorShare draw key v mac g i := fun g i => by
    rw [waitingError, h.zip, h.keyShare, List.map_ofFn, List.map_ofFn]
    rfl
  have hverdict := checkWith_verdict hcap hn draw hwaiting t
  simp only [herror, h.isZero_total_iff hdraw] at hverdict
  exact hverdict

end Opener

def dictated {α : Type} [Zero α] (chi : Fin m → α) : StateM Generator α := fun g =>
  (if h : g.taken < m then chi ⟨g.taken, h⟩ else 0, { g with taken := g.taken + 1 })

theorem stream_dictated {α : Type} [Zero α] (chi : Fin m → α) (k : Nat) (g : Generator)
    (h : g.taken + k < m) : stream (dictated chi) k g = chi ⟨g.taken + k, h⟩ :=
  (stream_of_taken (f := fun l => if h : l < m then chi ⟨l, h⟩ else 0) (fun _ => rfl) k g).trans
    (dif_pos h)

namespace Mersenne61

theorem modulus_prime : modulus.toNat.Prime :=
  lucas_lehmer_sufficiency 61 (by norm_num) (by norm_num)

def residues : {c : Mersenne61 // c.Canonical} ≃ ZMod modulus.toNat where
  toFun c := c.1.rep.toNat
  invFun z := ⟨ofNat z.val, of_decide_eq_true (Modular.ofNat_canonical (T := Mersenne61) z.val)⟩
  left_inv c := by
    have hc : c.1.rep.toNat < modulus.toNat := (canonical_iff c.1).mp c.2
    refine Subtype.ext (eq_of_toNat ?_)
    show (ofNat (c.1.rep.toNat : ZMod modulus.toNat).val).rep.toNat = _
    rw [toNat_ofNat, ZMod.val_natCast, Nat.mod_mod, Nat.mod_eq_of_lt hc]
  right_inv z := by
    have : NeZero modulus.toNat := ⟨by decide⟩
    show ((ofNat z.val).rep.toNat : ZMod modulus.toNat) = z
    rw [toNat_ofNat, Nat.mod_eq_of_lt (ZMod.val_lt z), ZMod.natCast_zmod_val]

end Mersenne61

namespace Opener

open AuthShares.Modular Mersenne61

variable {key : Fin n → Mersenne61} {v mac : Fin n → Fin m → Mersenne61}
  {o : Fin n → Opener Mersenne61}

def Accepts (capacity : Option Nat) (o : Fin n → Opener Mersenne61) (chi : Fin m → Mersenne61) :
    Prop :=
  ∀ t : Fin n → Tape, ∃ (o' : Fin n → Opener Mersenne61) (t' : Fin n → Tape),
    World.EndsIn capacity
      (World.start (fun i => (checkWith (dictated chi) (Player.numbered i)).run.run (o i)) t .empty)
      (World.start (fun i => .done (.ok (), o' i)) t' .empty)

theorem dictated_canonical {chi : Fin m → Mersenne61} (hchi : ∀ k, (chi k).Canonical)
    (g : Generator) : Element.isCanonical ((dictated chi).run g).1 := by
  show Element.isCanonical (if h : g.taken < m then chi ⟨g.taken, h⟩ else 0)
  split
  · exact decide_eq_true (hchi _)
  · exact zero_canonical

theorem drawn_dictated (chi : Fin m → Mersenne61) (t : Fin n → Tape) :
    drawn (dictated chi) m (Interaction.commonCoins t) = chi := by
  funext k
  have hk : (Interaction.commonCoins t).taken + k < m := (Nat.zero_add k.val).symm ▸ k.isLt
  refine (stream_dictated chi k _ hk).trans ?_
  congr 1
  exact Fin.ext (Nat.zero_add k.val)

/-- Challenges are accepted just if the combination of all errors vanishes. -/
theorem accepts_iff (hcap : capacity ≠ some 0) (hpos : 0 < n) (hn : n < wordRange) (hm : 0 < m)
    (h : Holds o key v mac) {chi : Fin m → Mersenne61} (hchi : ∀ k, (chi k).Canonical) :
    Accepts capacity o chi ↔ totalError key v mac chi = 0 := by
  have htog := checkWith_together hcap hn hm h (dictated_canonical hchi)
  simp only [drawn_dictated] at htog
  constructor
  · intro haccepts
    by_contra hne
    let t : Fin n → Tape := fun _ _ => zeroBytes
    obtain ⟨o', t', hend⟩ := haccepts t
    have htogether := htog t
    rw [if_neg hne] at htogether
    have hworlds := htogether.eq_of_endsIn hend
    have hprograms := congrArg (fun w => (w.runners ⟨0, hpos⟩).program) hworlds
    cases hprograms
  · intro hzero t
    have htogether := htog t
    rw [if_pos hzero] at htogether
    exact ⟨_, _, htogether.endsIn⟩

def keyedDifference (key : Fin n → Mersenne61) (x w : Fin m → Mersenne61) (k : Fin m) :
    Mersenne61 := Element.total (List.ofFn key) * (x k - w k)

/-- If the openings are common and the authentications are honest, only the differences
between secrets and openings count. -/
theorem Holds.totalError_eq (h : Holds o key v mac) {x w : Fin m → Mersenne61}
    (hx : ∀ k, (x k).Canonical) (hw : ∀ k, (w k).Canonical) (hcommon : ∀ i, v i = w)
    (hmac : ∀ k, Element.total (List.ofFn fun i => mac i k) =
      Element.total (List.ofFn key) * x k) (chi : Fin m → Mersenne61) :
    totalError key v mac chi = combination
      (fun k => ((keyedDifference key x w k).rep.toNat : ZMod (modulus Mersenne61)))
      fun k => residue (modulus Mersenne61) (chi k) := by
  have hkey := total_ofFn_canonical h.key_canonical
  have hxcan : ∀ k, Element.isCanonical (x k) := fun k => decide_eq_true (hx k)
  have hwcan : ∀ k, Element.isCanonical (w k) := fun k => decide_eq_true (hw k)
  rw [totalError, Finset.sum_comm]
  refine Finset.sum_congr rfl fun k _ => ?_
  have hsum : ∑ i, residue (modulus Mersenne61) (mac i k) =
      (∑ i, residue (modulus Mersenne61) (key i)) * residue (modulus Mersenne61) (x k) := by
    rw [← residue_total_ofFn dvd_rfl fun i => h.mac_canonical i k, hmac k,
      residue_mul dvd_rfl hkey (hxcan k), residue_total_ofFn dvd_rfl h.key_canonical]
  have hdifference : residue (modulus Mersenne61) (keyedDifference key x w k) =
      (∑ i, residue (modulus Mersenne61) (key i)) *
        (residue (modulus Mersenne61) (x k) - residue (modulus Mersenne61) (w k)) := by
    rw [keyedDifference, residue_mul dvd_rfl hkey (sub_canonical (hxcan k) (hwcan k)),
      residue_sub dvd_rfl (hxcan k) (hwcan k), residue_total_ofFn dvd_rfl h.key_canonical]
  show _ = residue (modulus Mersenne61) (chi k) *
    residue (modulus Mersenne61) (keyedDifference key x w k)
  simp only [hcommon]
  rw [← Finset.mul_sum, hdifference, Finset.sum_sub_distrib, hsum, ← Finset.sum_mul, ← mul_sub]

/-- A key that is not zero shows every difference. -/
theorem keyedDifference_ne (hkey : ∀ i, Element.isCanonical (key i))
    (halpha : Element.total (List.ofFn key) ≠ 0) {x w : Fin m → Mersenne61}
    (hx : ∀ k, (x k).Canonical) (hw : ∀ k, (w k).Canonical) {k : Fin m} (hk : w k ≠ x k) :
    ¬ modulus Mersenne61 ∣ (keyedDifference key x w k).rep.toNat := by
  have : Fact (modulus Mersenne61).Prime := ⟨modulus_prime⟩
  have htotal := total_ofFn_canonical hkey
  have hxk : Element.isCanonical (x k) := decide_eq_true (hx k)
  have hwk : Element.isCanonical (w k) := decide_eq_true (hw k)
  have hfactors : residue (modulus Mersenne61) (keyedDifference key x w k) =
      residue (modulus Mersenne61) (Element.total (List.ofFn key)) *
        (residue (modulus Mersenne61) (x k) - residue (modulus Mersenne61) (w k)) := by
    rw [keyedDifference, residue_mul dvd_rfl htotal (sub_canonical hxk hwk),
      residue_sub dvd_rfl hxk hwk]
  intro hdvd
  have hzero : residue (modulus Mersenne61) (keyedDifference key x w k) = 0 :=
    (ZMod.natCast_eq_zero_iff _ _).mpr hdvd
  rw [hfactors] at hzero
  rcases mul_eq_zero.mp hzero with h | h
  · refine halpha (eq_of_residue htotal zero_canonical ?_)
    rw [h, residue_zero dvd_rfl]
  · exact hk (eq_of_residue hxk hwk (sub_eq_zero.mp h)).symm

/-- If some opening is wrong, the combination of differences vanishes for just one in as many
challenges as there are elements. -/
theorem card_accepts (hcap : capacity ≠ some 0) (hpos : 0 < n) (hn : n < wordRange) (hm : 0 < m)
    (h : Holds o key v mac) {x w : Fin m → Mersenne61} (hx : ∀ k, (x k).Canonical)
    (hcommon : ∀ i, v i = w) (hmac : ∀ k, Element.total (List.ofFn fun i => mac i k) =
      Element.total (List.ofFn key) * x k)
    (halpha : Element.total (List.ofFn key) ≠ 0) (hne : w ≠ x) :
    Nat.card {chi : Fin m → {c : Mersenne61 // c.Canonical} //
        Accepts capacity o fun k => (chi k).1} = modulus Mersenne61 ^ (m - 1) := by
  have hw : ∀ k, (w k).Canonical := fun k => by
    have hcan := h.value_canonical ⟨0, hpos⟩ k
    rw [hcommon] at hcan
    exact of_decide_eq_true hcan
  obtain ⟨k, hk⟩ := Function.ne_iff.mp hne
  let d : Fin m → Nat := fun k => (keyedDifference key x w k).rep.toNat
  have hgcd : (modulus Mersenne61).gcd (Finset.univ.gcd d) = 1 := by
    refine (Nat.Prime.coprime_iff_not_dvd modulus_prime).mpr fun hdvd => ?_
    exact keyedDifference_ne h.key_canonical halpha hx hw hk
      (hdvd.trans (Finset.gcd_dvd (Finset.mem_univ k)))
  have hcard := card_ker_combination (q := modulus Mersenne61) modulus_prime.ne_zero hm d
  rw [hgcd, mul_one] at hcard
  rw [← hcard]
  refine Nat.card_congr ((Equiv.arrowCongr (Equiv.refl _) residues).subtypeEquiv fun chi => ?_)
  rw [accepts_iff hcap hpos hn hm h fun k => (chi k).2, h.totalError_eq hx hw hcommon hmac]
  rfl

/-- The verdict of a check with what all players draw, and how many challenges accept openings
of which at least one is wrong. -/
theorem check_verdict (hcap : capacity ≠ some 0) (hpos : 0 < n) (hn : n < wordRange) (hm : 0 < m)
    (h : Holds o key v mac) :
    (∀ t : Fin n → Tape, World.EndsIn capacity
      (World.start (fun i => (check (Player.numbered i)).run.run (o i)) t .empty)
      (World.start (fun i => .done
        (if totalError key v mac (drawn MacElement.random m (Interaction.commonCoins t)) = 0
          then .ok () else .error .macCheckFailed, (o i).clearWaiting))
        (fun i => (t i).tail.tail.tail) .empty)) ∧
    ∀ x w : Fin m → Mersenne61, (∀ k, (x k).Canonical) → (∀ i, v i = w) →
      (∀ k, Element.total (List.ofFn fun i => mac i k) = Element.total (List.ofFn key) * x k) →
      Element.total (List.ofFn key) ≠ 0 → w ≠ x →
      Nat.card {chi : Fin m → {c : Mersenne61 // c.Canonical} //
          Accepts capacity o fun k => (chi k).1} = (2 ^ 61 - 1) ^ (m - 1) ∧
        Nat.card (Fin m → {c : Mersenne61 // c.Canonical}) = (2 ^ 61 - 1) ^ m := by
  constructor
  · intro t
    have htogether := checkWith_together hcap hn hm h Modular.random_canonical t
    simp only [checkWith_random] at htogether
    exact htogether.endsIn
  · intro x w hx hcommon hmac halpha hne
    refine ⟨card_accepts hcap hpos hn hm h hx hcommon hmac halpha hne, ?_⟩
    rw [Nat.card_fun, Nat.card_congr residues, Nat.card_zmod, Nat.card_fin]
    rfl

def falseSeven (i : Fin 2) : Opener Mersenne61 :=
  { new .aggregated (sevenKey i) .default with
    waitingValues := [⟨7⟩, ⟨8⟩]
    waitingMacs := [(Sharing.seven.share i).mac, (Sharing.seven.share i).mac] }

theorem holds_falseSeven : Holds falseSeven sevenKey (fun _ => ![⟨7⟩, ⟨8⟩])
    fun i _ => (Sharing.seven.share i).mac where
  keyShare _ := rfl
  values _ := rfl
  macs _ := rfl
  key_canonical := by decide
  value_canonical := by decide
  mac_canonical := by decide

theorem check_verdict_falseSeven :
    (∀ t : Fin 2 → Tape, World.EndsIn none
      (World.start (fun i => (check (Player.numbered i)).run.run (falseSeven i)) t .empty)
      (World.start (fun i => .done
        (if totalError sevenKey (fun _ => ![⟨7⟩, ⟨8⟩]) (fun i _ => (Sharing.seven.share i).mac)
            (drawn MacElement.random 2 (Interaction.commonCoins t)) = 0
          then .ok () else .error .macCheckFailed, (falseSeven i).clearWaiting))
        (fun i => (t i).tail.tail.tail) .empty)) ∧
    Nat.card {chi : Fin 2 → {c : Mersenne61 // c.Canonical} //
        Accepts none falseSeven fun k => (chi k).1} = (2 ^ 61 - 1) ^ (2 - 1) ∧
      Nat.card (Fin 2 → {c : Mersenne61 // c.Canonical}) = (2 ^ 61 - 1) ^ 2 := by
  have hcap : (none : Option Nat) ≠ some 0 := by simp
  have h := check_verdict hcap (by decide) (by decide) (by decide) holds_falseSeven
  refine ⟨h.1, h.2 (fun _ => ⟨7⟩) ![⟨7⟩, ⟨8⟩] (by decide) (fun _ => rfl) (by decide) (by decide) ?_⟩
  intro hsame
  exact absurd (congrFun hsame 1) (by decide)

end Opener

end AuthShares
