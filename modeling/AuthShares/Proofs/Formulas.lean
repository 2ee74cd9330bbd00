import AuthShares.Proofs.Dealing
import AuthShares.Proofs.Element.Ring128
import AuthShares.Proofs.Opening.Sharing
import Mathlib.Data.List.GetD

/-!
# Formulas of shared secrets

Players add, subtract and scale their shares each on their own, and take in public constants. Each
of these steps makes a sharing of sharings, of what the same step makes of the secrets. So by
induction on a formula its value is shared, and authenticated, by what the players come to.
-/

set_option autoImplicit false

namespace AuthShares

open Element Modular
open scoped BigOperators

variable {n : Nat} {T : Type} [MacElement T] {key : Fin n → T}

inductive Formula (key : Fin n → T) where
  | given (s : Sharing T key)
  | dealt (index : Nat)
  | zero
  | add (f g : Formula key)
  | sub (f g : Formula key)
  | scale (f : Formula key) (c : T)
  | addPublic (f : Formula key) (c : T)

namespace Formula

def value (dealt : List T) : Formula key → T
  | given s => s.secret
  | .dealt index => dealt.getD index 0
  | zero => 0
  | add f g => f.value dealt + g.value dealt
  | sub f g => f.value dealt - g.value dealt
  | scale f c => f.value dealt * c
  | addPublic f c => f.value dealt + c

def atPlayer (i : Fin n) : Formula key → Share.Expr T
  | given s => .given (s.share i)
  | .dealt index => .dealt index
  | zero => .zero
  | add f g => .add (f.atPlayer i) (g.atPlayer i)
  | sub f g => .sub (f.atPlayer i) (g.atPlayer i)
  | scale f c => .scale (f.atPlayer i) c
  | addPublic f c => .addPublic (f.atPlayer i) c

def share (dealt : List (Sharing T key)) (f : Formula key) (i : Fin n) : Share T :=
  (f.atPlayer i).eval (key i) i (dealt.map fun s => s.share i)

def Canonical : Formula key → Prop
  | given _ | .dealt _ | zero => True
  | add f g | sub f g => f.Canonical ∧ g.Canonical
  | scale f c | addPublic f c => f.Canonical ∧ isCanonical c

end Formula

variable [Modular T]

namespace Sharing

section

variable (hkey : ∀ i, isCanonical (key i))

def ofResidues (secret : T) (share : Fin n → Share T) (hsecret : isCanonical secret)
    (hvalues : ∀ i, isCanonical (share i).value) (hmacs : ∀ i, isCanonical (share i).mac)
    (hvalue : ∑ i, residue (modulus T) (share i).value = residue (modulus T) secret)
    (hmac : ∑ i, residue (modulus T) (share i).mac =
      (∑ i, residue (modulus T) (key i)) * residue (modulus T) secret) : Sharing T key where
  secret := secret
  share := share
  value_canonical := hvalues
  mac_canonical := hmacs
  total_value := total_ofFn_eq hvalues hsecret hvalue
  total_mac := total_ofFn_eq_mul hkey hmacs hsecret hmac

def nothing : Sharing T key :=
  ofResidues hkey 0 (fun _ => 0) zero_canonical (fun _ => zero_canonical) (fun _ => zero_canonical)
    (by
      show ∑ _ : Fin n, residue (modulus T) (0 : T) = _
      simp [residue_zero (dvd_refl (modulus T))])
    (by
      show ∑ _ : Fin n, residue (modulus T) (0 : T) = _
      simp [residue_zero (dvd_refl (modulus T))])

def add (s t : Sharing T key) : Sharing T key :=
  ofResidues hkey (s.secret + t.secret) (fun i => s.share i + t.share i)
    (add_canonical s.secret_canonical t.secret_canonical)
    (fun i => add_canonical (s.value_canonical i) (t.value_canonical i))
    (fun i => add_canonical (s.mac_canonical i) (t.mac_canonical i))
    (by
      have hterm : ∀ i, residue (modulus T) (s.share i + t.share i).value =
          residue (modulus T) (s.share i).value + residue (modulus T) (t.share i).value :=
        fun i => residue_add dvd_rfl (s.value_canonical i) (t.value_canonical i)
      simp only [hterm, Finset.sum_add_distrib, sum_value _ dvd_rfl]
      rw [residue_add dvd_rfl s.secret_canonical t.secret_canonical])
    (by
      have hterm : ∀ i, residue (modulus T) (s.share i + t.share i).mac =
          residue (modulus T) (s.share i).mac + residue (modulus T) (t.share i).mac :=
        fun i => residue_add dvd_rfl (s.mac_canonical i) (t.mac_canonical i)
      simp only [hterm, Finset.sum_add_distrib, sum_mac _ hkey dvd_rfl]
      rw [residue_add dvd_rfl s.secret_canonical t.secret_canonical, mul_add])

def sub (s t : Sharing T key) : Sharing T key :=
  ofResidues hkey (s.secret - t.secret) (fun i => s.share i - t.share i)
    (sub_canonical s.secret_canonical t.secret_canonical)
    (fun i => sub_canonical (s.value_canonical i) (t.value_canonical i))
    (fun i => sub_canonical (s.mac_canonical i) (t.mac_canonical i))
    (by
      have hterm : ∀ i, residue (modulus T) (s.share i - t.share i).value =
          residue (modulus T) (s.share i).value - residue (modulus T) (t.share i).value :=
        fun i => residue_sub dvd_rfl (s.value_canonical i) (t.value_canonical i)
      simp only [hterm, Finset.sum_sub_distrib, sum_value _ dvd_rfl]
      rw [residue_sub dvd_rfl s.secret_canonical t.secret_canonical])
    (by
      have hterm : ∀ i, residue (modulus T) (s.share i - t.share i).mac =
          residue (modulus T) (s.share i).mac - residue (modulus T) (t.share i).mac :=
        fun i => residue_sub dvd_rfl (s.mac_canonical i) (t.mac_canonical i)
      simp only [hterm, Finset.sum_sub_distrib, sum_mac _ hkey dvd_rfl]
      rw [residue_sub dvd_rfl s.secret_canonical t.secret_canonical, mul_sub])

def scale (s : Sharing T key) {c : T} (hc : isCanonical c) : Sharing T key :=
  ofResidues hkey (s.secret * c) (fun i => (s.share i).scale c)
    (mul_canonical s.secret_canonical hc)
    (fun i => mul_canonical (s.value_canonical i) hc)
    (fun i => mul_canonical (s.mac_canonical i) hc)
    (by
      have hterm : ∀ i, residue (modulus T) ((s.share i).scale c).value =
          residue (modulus T) (s.share i).value * residue (modulus T) c :=
        fun i => residue_mul dvd_rfl (s.value_canonical i) hc
      simp only [hterm, ← Finset.sum_mul, sum_value _ dvd_rfl]
      rw [residue_mul dvd_rfl s.secret_canonical hc])
    (by
      have hterm : ∀ i, residue (modulus T) ((s.share i).scale c).mac =
          residue (modulus T) (s.share i).mac * residue (modulus T) c :=
        fun i => residue_mul dvd_rfl (s.mac_canonical i) hc
      simp only [hterm, ← Finset.sum_mul, sum_mac _ hkey dvd_rfl]
      rw [residue_mul dvd_rfl s.secret_canonical hc, mul_assoc])

omit [Modular T] in
theorem addPublic_value (a : Share T) (c keyShare : T) (i : Nat) :
    (a.addPublic c keyShare i).value = if i = 0 then a.value + c else a.value := rfl

def addPublic (hn : 0 < n) (s : Sharing T key) {c : T} (hc : isCanonical c) : Sharing T key :=
  ofResidues hkey (s.secret + c) (fun i => (s.share i).addPublic c (key i) i)
    (add_canonical s.secret_canonical hc)
    (fun i => by
      rw [addPublic_value]
      split
      · exact add_canonical (s.value_canonical i) hc
      · exact s.value_canonical i)
    (fun i => add_canonical (s.mac_canonical i) (mul_canonical (hkey i) hc))
    (by
      have hterm : ∀ i : Fin n, residue (modulus T) ((s.share i).addPublic c (key i) i).value =
          residue (modulus T) (s.share i).value +
            if i = ⟨0, hn⟩ then residue (modulus T) c else 0 := by
        intro i
        rw [addPublic_value]
        by_cases hi : i = ⟨0, hn⟩
        · rw [if_pos (congrArg Fin.val hi), if_pos hi, residue_add dvd_rfl (s.value_canonical i) hc]
        · rw [if_neg fun h => hi (Fin.ext h), if_neg hi, add_zero]
      simp only [hterm, Finset.sum_add_distrib, sum_value _ dvd_rfl, Finset.sum_ite_eq',
        Finset.mem_univ, if_true]
      rw [residue_add dvd_rfl s.secret_canonical hc])
    (by
      have hterm : ∀ i : Fin n, residue (modulus T) ((s.share i).addPublic c (key i) i).mac =
          residue (modulus T) (s.share i).mac +
            residue (modulus T) (key i) * residue (modulus T) c := by
        intro i
        rw [← residue_mul dvd_rfl (hkey i) hc]
        exact residue_add dvd_rfl (s.mac_canonical i) (mul_canonical (hkey i) hc)
      simp only [hterm, Finset.sum_add_distrib, ← Finset.sum_mul, sum_mac _ hkey dvd_rfl]
      rw [residue_add dvd_rfl s.secret_canonical hc, mul_add])

end

end Sharing

namespace Formula

/-- What the players come to is a sharing of the value. -/
theorem exists_sharing (hn : 0 < n) (hkey : ∀ i, isCanonical (key i)) (dealt : List (Sharing T key))
    {f : Formula key} (hf : f.Canonical) :
    ∃ s : Sharing T key, s.secret = f.value (dealt.map Sharing.secret) ∧
      ∀ i, s.share i = f.share dealt i := by
  induction f with
  | given s => exact ⟨s, rfl, fun _ => rfl⟩
  | dealt index =>
    refine ⟨dealt.getD index (.nothing hkey), ?_, ?_⟩
    · exact (List.getD_map dealt (.nothing hkey) Sharing.secret).symm
    · intro i
      exact (List.getD_map dealt (.nothing hkey) fun s => s.share i).symm
  | zero => exact ⟨.nothing hkey, rfl, fun _ => rfl⟩
  | add f g ihf ihg =>
    obtain ⟨s, hs, hshare⟩ := ihf hf.1
    obtain ⟨t, ht, hshare'⟩ := ihg hf.2
    refine ⟨s.add hkey t, ?_, ?_⟩
    · exact congrArg₂ (· + ·) hs ht
    · intro i
      exact congrArg₂ (· + ·) (hshare i) (hshare' i)
  | sub f g ihf ihg =>
    obtain ⟨s, hs, hshare⟩ := ihf hf.1
    obtain ⟨t, ht, hshare'⟩ := ihg hf.2
    refine ⟨s.sub hkey t, ?_, ?_⟩
    · exact congrArg₂ (· - ·) hs ht
    · intro i
      exact congrArg₂ (· - ·) (hshare i) (hshare' i)
  | scale f c ih =>
    obtain ⟨s, hs, hshare⟩ := ih hf.1
    refine ⟨s.scale hkey hf.2, ?_, ?_⟩
    · exact congrArg (· * c) hs
    · intro i
      exact congrArg (·.scale c) (hshare i)
  | addPublic f c ih =>
    obtain ⟨s, hs, hshare⟩ := ih hf.1
    refine ⟨s.addPublic hkey hn hf.2, ?_, ?_⟩
    · exact congrArg (· + c) hs
    · intro i
      exact congrArg (·.addPublic c (key i) i) (hshare i)

/-- Whatever formula the players work out, their shares are those of its value: canonical, and
authenticated under the sum of their shares of the key. -/
theorem shares_authentic (hn : 0 < n) (hkey : ∀ i, isCanonical (key i))
    (dealt : List (Sharing T key)) {f : Formula key} (hf : f.Canonical) :
    Authentic (total (List.ofFn key)) (f.value (dealt.map Sharing.secret))
        (List.ofFn (f.share dealt)) ∧
      ∀ i, isCanonical (f.share dealt i).value ∧ isCanonical (f.share dealt i).mac := by
  obtain ⟨s, hsecret, hshare⟩ := exists_sharing hn hkey dealt hf
  have hall : f.share dealt = s.share := funext fun i => (hshare i).symm
  rw [hall, ← hsecret]
  constructor
  · constructor
    · rw [List.map_ofFn]
      exact s.total_value
    · rw [List.map_ofFn]
      exact s.total_mac
  · intro i
    exact ⟨s.value_canonical i, s.mac_canonical i⟩

def forty : Formula sevenKey :=
  .addPublic (.sub (.scale (.add (.given .seven) (.dealt 0)) ⟨3⟩) (.dealt 0)) ⟨5⟩

def ringKey (i : Fin 2) : Ring128 := .ofNat (2 + i)

def five : Formula ringKey := .addPublic .zero ⟨5⟩

/-- Two players work out forty from seven, and over the ring one of them brings in five. -/
theorem shares_authentic_forty :
    (0 < 2 ∧ (∀ i, isCanonical (sevenKey i)) ∧ forty.Canonical ∧
      forty.value [⟨7⟩] = ⟨40⟩ ∧
      Authentic ⟨5⟩ ⟨40⟩ (List.ofFn (forty.share [Sharing.seven]))) ∧
    Authentic ⟨5⟩ ⟨5⟩ (List.ofFn (five.share [])) := by
  have hkey : ∀ i, isCanonical (sevenKey i) := by decide
  have hf : forty.Canonical := ⟨⟨⟨⟨trivial, trivial⟩, rfl⟩, trivial⟩, rfl⟩
  have hprime := (shares_authentic (by decide) hkey [.seven] hf).1
  have hfive : five.Canonical := ⟨trivial, rfl⟩
  have hring := (shares_authentic (by decide) (fun _ => rfl) [] hfive).1
  exact ⟨⟨by decide, hkey, hf, by decide, hprime⟩, hring⟩

end Formula

end AuthShares
