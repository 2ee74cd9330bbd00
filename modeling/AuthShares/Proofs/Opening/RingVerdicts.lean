import AuthShares.Proofs.Opening.Challenges

/-!
# The verdict of the ring check

The ring check has one verdict for all players, whatever shares, authentications and mask they
come with. It is a matter of two congruences: the combined shares have to agree with the
openings in the lower halves of words of 128 bits, and the masked combination, its upper half
included, has to be authenticated under the key.
-/

set_option autoImplicit false

namespace AuthShares.RingOpener

open scoped BigOperators
open Ring128

variable {n m : Nat} {capacity : Option Nat} {key : Fin n → Ring128} {v : Fin m → Ring128}
  {share mac : Fin n → Fin m → Ring128} {mask : Fin n → Share Ring128} {a : Aggregator}
  {o : Fin n → RingOpener Ring128}

def combinedNat (chi : Fin m → Nat) (x : Fin n → Fin m → Ring128) : Nat :=
  ∑ k, chi k * ∑ i, (x i k).bits.toNat

def maskedNat (chi : Fin m → Nat) (x : Fin n → Fin m → Ring128) (mask : Fin n → Ring128) : Nat :=
  combinedNat chi x + 2 ^ 64 * ∑ i, (mask i).bits.toNat

def finding (key : Fin n → Ring128) (v : Fin m → Ring128) (share mac : Fin n → Fin m → Ring128)
    (mask : Fin n → Share Ring128) (chi : Fin m → Nat) : Except Error Unit :=
  if combinedNat chi share ≡ ∑ k, chi k * (v k).bits.toNat [MOD 2 ^ 64] then
    if maskedNat chi mac (fun i => (mask i).mac) ≡
        (∑ i, (key i).bits.toNat) * maskedNat chi share (fun i => (mask i).value)
          [MOD 2 ^ 128] then .ok ()
    else .error .macCheckFailed
  else .error .inconsistentOpening

theorem combinedSum_eq (q : Nat) (chi : Fin m → Ring128) (x : Fin n → Fin m → Ring128) :
    combinedSum q chi x = combinedNat (fun k => (chi k).bits.toNat) x := by
  simp only [combinedSum, combinedNat, Nat.cast_sum, Nat.cast_mul]
  rfl

theorem maskedSum_eq (chi : Fin m → Ring128) (x : Fin n → Fin m → Ring128)
    (mask : Fin n → Ring128) :
    maskedSum chi x mask = maskedNat (fun k => (chi k).bits.toNat) x mask := by
  rw [maskedSum, maskedNat, combinedSum_eq, Nat.cast_add, Nat.cast_mul, Nat.cast_sum]
  rfl

theorem verdict_eq_finding (key : Fin n → Ring128) (v : Fin m → Ring128)
    (share mac : Fin n → Fin m → Ring128) (mask : Fin n → Share Ring128) (chi : Fin m → Ring128) :
    verdict key v share mac mask chi =
      finding key v share mac mask fun k => (chi k).bits.toNat := by
  have hlow : combinedSum (2 ^ 64) chi share =
        ∑ k, Modular.residue (2 ^ 64) (chi k) * Modular.residue (2 ^ 64) (v k) ↔
      combinedNat (fun k => (chi k).bits.toNat) share ≡
        ∑ k, (chi k).bits.toNat * (v k).bits.toNat [MOD 2 ^ 64] := by
    rw [combinedSum_eq, ← ZMod.natCast_eq_natCast_iff, Nat.cast_sum]
    simp only [Nat.cast_mul]
    rfl
  have hmac : maskedSum chi mac (fun i => (mask i).mac) =
        (∑ i, Modular.residue (Modular.modulus Ring128) (key i)) *
          maskedSum chi share (fun i => (mask i).value) ↔
      maskedNat (fun k => (chi k).bits.toNat) mac (fun i => (mask i).mac) ≡
        (∑ i, (key i).bits.toNat) *
          maskedNat (fun k => (chi k).bits.toNat) share (fun i => (mask i).value)
            [MOD 2 ^ 128] := by
    rw [maskedSum_eq, maskedSum_eq, ← ZMod.natCast_eq_natCast_iff, Nat.cast_mul, Nat.cast_sum]
    rfl
  exact if_congr hlow (if_congr hmac rfl rfl) rfl

theorem verdict_sampling (sample : StateM Generator UInt64) (key : Fin n → Ring128)
    (v : Fin m → Ring128) (share mac : Fin n → Fin m → Ring128) (mask : Fin n → Share Ring128)
    (chi : Fin m → Ring128) :
    @verdict n m Ring128 (sampling sample) (modularRing sample) key v share mac mask chi =
      verdict key v share mac mask chi := rfl

def sampled (sample : StateM Generator UInt64) (m : Nat) (g : Generator) (k : Fin m) : Nat :=
  (@challenges Ring128 (sampling sample) m g k).bits.toNat

theorem checkWith_together (sample : StateM Generator UInt64) (hcap : capacity ≠ some 0)
    (hpos : 0 < n) (hn : 2 * n < wordRange) (hm : 0 < m) (h : Holds o key v share mac mask a)
    (t : Fin n → Tape) :
    ∃ (o' : Fin n → RingOpener Ring128) (t' : Fin n → Tape), World.Together capacity
      (fun i => (checkWith sample (Player.numbered i)).run.run (o i)) t
      (fun i => (finding key v share mac mask (sampled sample m (Interaction.commonCoins t)), o' i))
      t' := by
  choose rest hrest using h.masks
  have htog := @Holds.check_together n m capacity Ring128 (sampling sample) o key v share mac mask a
    (modularRing sample) _ _ _ hcap hpos hn hm h rest hrest t
  obtain ⟨packed', t', htog⟩ := htog
  rw [@Holds.judged_eq n m Ring128 (sampling sample) o key v share mac mask a
    (modularRing sample) _ h, verdict_sampling, verdict_eq_finding] at htog
  exact ⟨_, t', htog⟩

theorem sampled_script (chi : Fin m → UInt64) {g : Generator} (hg : g.taken = 0) :
    sampled (script chi) m g = fun k => (chi k).toNat := by
  funext k
  have hlt : (chi k).toNat < 2 ^ 128 := (chi k).toNat_lt.trans (by decide)
  show (stream (sampling (script chi)).challenge k g).bits.toNat = (chi k).toNat
  rw [stream_script_fresh chi hg, toNat_ofNat, Nat.mod_eq_of_lt hlt]

/-- Whatever shares, authentications and mask the players come with, all of them find the same,
with challenges that are drawn and with any that are given. There are as many players as signed
words can number. -/
theorem check_finds (hcap : capacity ≠ some 0) (hpos : 0 < n) (hn : 2 * n < wordRange)
    (hm : 0 < m) (h : Holds o key v share mac mask a) :
    (∀ t : Fin n → Tape, ∃ (o' : Fin n → RingOpener Ring128) (t' : Fin n → Tape),
      World.EndsIn capacity
        (World.start (fun i => (check (Player.numbered i)).run.run (o i)) t .empty)
        (World.start (fun i => .done (finding key v share mac mask
          (sampled Generator.word64 m (Interaction.commonCoins t)), o' i)) t' .empty)) ∧
    ∀ (chi : Fin m → UInt64) (t : Fin n → Tape),
      ∃ (o' : Fin n → RingOpener Ring128) (t' : Fin n → Tape), World.EndsIn capacity
        (World.start (fun i => (checkWith (script chi) (Player.numbered i)).run.run (o i)) t .empty)
        (World.start (fun i => .done
          (finding key v share mac mask fun k => (chi k).toNat, o' i)) t' .empty) := by
  constructor
  · intro t
    obtain ⟨o', t', htog⟩ := checkWith_together Generator.word64 hcap hpos hn hm h t
    exact ⟨o', t', htog.endsIn⟩
  · intro chi t
    obtain ⟨o', t', htog⟩ := checkWith_together (script chi) hcap hpos hn hm h t
    rw [sampled_script chi rfl] at htog
    exact ⟨o', t', htog.endsIn⟩

/-- Seven is opened and eleven is the mask, but the first player has a share of seven that is
wrong in a bit which does not show. -/
def hiddenSeven (i : Fin 2) : RingOpener Ring128 :=
  { claimsSeven ⟨7⟩ i with waitingShares := [⟨if i.val = 0 then 18446744073709551619 else 4⟩] }

theorem holds_hiddenSeven : Holds hiddenSeven (fun i => ⟨if i.val = 0 then 2 else 3⟩)
    (fun _ : Fin 1 => ⟨7⟩) (fun i _ => ⟨if i.val = 0 then 18446744073709551619 else 4⟩)
    (fun i _ => (seven.share i).mac) eleven.share (.ofConfig .default) where
  keyShare _ := rfl
  values _ := rfl
  macs _ := rfl
  shares _ := rfl
  masks _ := ⟨[], rfl⟩
  aggregator _ := ⟨[], rfl⟩
  key_canonical _ := rfl
  value_canonical _ := rfl
  share_canonical _ _ := rfl
  mac_canonical _ _ := rfl

theorem check_finds_hiddenSeven :
    Holds hiddenSeven (fun i => ⟨if i.val = 0 then 2 else 3⟩)
        (fun _ : Fin 1 => ⟨7⟩) (fun i _ => ⟨if i.val = 0 then 18446744073709551619 else 4⟩)
        (fun i _ => (seven.share i).mac) eleven.share (.ofConfig .default) ∧
      ∀ t : Fin 2 → Tape, ∃ (o' : Fin 2 → RingOpener Ring128) (t' : Fin 2 → Tape),
        World.EndsIn none
          (World.start (fun i =>
            (checkWith (script fun _ : Fin 1 => 1) (Player.numbered i)).run.run (hiddenSeven i)) t
            .empty)
          (World.start (fun i => .done (.error .macCheckFailed, o' i)) t' .empty) := by
  have hcap : (none : Option Nat) ≠ some 0 := by simp
  have hfinding : finding (fun i : Fin 2 => ⟨if i.val = 0 then 2 else 3⟩) (fun _ : Fin 1 => ⟨7⟩)
      (fun i _ => ⟨if i.val = 0 then 18446744073709551619 else 4⟩) (fun i _ => (seven.share i).mac)
      eleven.share (fun _ => (1 : UInt64).toNat) = .error .macCheckFailed := by decide +kernel
  have h := (check_finds hcap (by decide) (by decide) (by decide) holds_hiddenSeven).2 fun _ => 1
  rw [hfinding] at h
  exact ⟨holds_hiddenSeven, h⟩

end AuthShares.RingOpener
