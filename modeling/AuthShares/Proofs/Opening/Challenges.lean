import AuthShares.Proofs.Opening.Masks
import AuthShares.Proofs.Opening.Vanishing

/-!
# How many challenges miss a false opening

The challenges of the ring check are single words. Those for which the check passes can be
counted: an opening that is wrong by a multiple of a power of two is missed that much more
often, up to every second time if only the topmost of the bits shown is wrong.
-/

set_option autoImplicit false

namespace AuthShares

open scoped BigOperators

variable {n m : Nat}

namespace Ring128

@[reducible]
def sampling (sample : StateM Generator UInt64) : RingElement Ring128 :=
  { (inferInstance : RingElement Ring128) with
    challenge := do return ofNat (← sample).toNat }

@[reducible]
def modularRing (sample : StateM Generator UInt64) :
    @ModularRing Ring128 (sampling sample) :=
  @ModularRing.mk Ring128 (sampling sample) (inferInstanceAs (Modular Ring128)) (2 ^ 64)
    ⟨2 ^ 64, rfl⟩ shift_eq_ofNat low_eq_ofNat fun _ => rfl

def script (chi : Fin m → UInt64) : StateM Generator UInt64 := fun g =>
  (if h : g.taken < m then chi ⟨g.taken, h⟩ else 0, { g with taken := g.taken + 1 })

theorem stream_script (chi : Fin m → UInt64) (k : Nat) (g : Generator) (h : g.taken + k < m) :
    stream (sampling (script chi)).challenge k g = ofNat (chi ⟨g.taken + k, h⟩).toNat := by
  have hstream : stream (sampling (script chi)).challenge k g =
      ofNat (if h : g.taken + k < m then chi ⟨g.taken + k, h⟩ else 0).toNat :=
    stream_of_taken (f := fun l => ofNat (if h : l < m then chi ⟨l, h⟩ else 0).toNat)
      (fun _ => rfl) k g
  rw [hstream, dif_pos h]

theorem stream_script_fresh (chi : Fin m → UInt64) {g : Generator} (hg : g.taken = 0)
    (k : Fin m) : stream (sampling (script chi)).challenge k g = ofNat (chi k).toNat := by
  have hk : g.taken + k < m := by omega
  rw [stream_script chi k g hk]
  congr 3
  exact Fin.ext (show g.taken + k.val = k.val by rw [hg, Nat.zero_add])

def words : UInt64 ≃ ZMod (2 ^ 64) where
  toFun w := w.toNat
  invFun z := UInt64.ofNat z.val
  left_inv w := by
    show UInt64.ofNat (w.toNat : ZMod (2 ^ 64)).val = w
    rw [ZMod.val_natCast, Nat.mod_eq_of_lt w.toNat_lt, UInt64.ofNat_toNat]
  right_inv z := by
    show ((UInt64.ofNat z.val).toNat : ZMod (2 ^ 64)) = z
    rw [UInt64.toNat_ofNat', Nat.mod_eq_of_lt (ZMod.val_lt z), ZMod.natCast_zmod_val]

end Ring128

namespace RingOpener

open Ring128

def checkWith (sample : StateM Generator UInt64) (player : Player) :
    Action (RingOpener Ring128) Unit :=
  @check Ring128 (sampling sample) inferInstance inferInstance player

theorem checkWith_word64 : checkWith Generator.word64 = check := rfl

/-- However messages are interleaved and whatever is drawn, the check with the challenges
`chi` succeeds. -/
def Passes (o : Fin n → RingOpener Ring128) (chi : Fin m → UInt64) : Prop :=
  ∀ t : Fin n → Tape, ∃ (o' : Fin n → RingOpener Ring128) (t' : Fin n → Tape),
    World.EndsIn none
      (World.start (fun i => (checkWith (script chi) (Player.numbered i)).run.run (o i)) t .empty)
      (World.start (fun i => .done (.ok (), o' i)) t' .empty)

variable {key : Fin n → Ring128} {o : Fin n → RingOpener Ring128}
  {x : Fin m → Sharing Ring128 key} {v : Fin m → Ring128} {mask : Sharing Ring128 key}
  {a : Aggregator}

def difference (x : Fin m → Sharing Ring128 key) (v : Fin m → Ring128) (k : Fin m) : Nat :=
  ((x k).secret - v k).bits.toNat

theorem deviation_script (chi : Fin m → UInt64) {g : Generator} (hg : g.taken = 0) :
    @deviation n m Ring128 (sampling (script chi)) (modularRing _) key x v g =
      combination (fun k => (difference x v k : ZMod (2 ^ 64)))
        fun k => ((chi k).toNat : ZMod (2 ^ 64)) := by
  refine Finset.sum_congr rfl fun k _ => ?_
  have hshown : 2 ^ 64 ∣ Modular.modulus Ring128 := ⟨2 ^ 64, rfl⟩
  have hword : Modular.residue (2 ^ 64) (ofNat (chi k).toNat) = ((chi k).toNat : ZMod (2 ^ 64)) :=
    Modular.residue_ofNat hshown _
  have hsub : (difference x v k : ZMod (2 ^ 64)) =
      Modular.residue (2 ^ 64) (x k).secret - Modular.residue (2 ^ 64) (v k) :=
    Modular.residue_sub hshown rfl rfl
  show Modular.residue (2 ^ 64) (stream (sampling (script chi)).challenge k g) *
    (Modular.residue (2 ^ 64) (x k).secret - Modular.residue (2 ^ 64) (v k)) =
      ((chi k).toNat : ZMod (2 ^ 64)) * (difference x v k : ZMod (2 ^ 64))
  rw [hsub, ← hword, ← stream_script_fresh chi hg]

/-- The check passes just if the combination of the differences vanishes. -/
theorem passes_iff (hpos : 0 < n) (hn : 2 * n < wordRange) (hm : 0 < m)
    (h : Awaits o x v mask a) (chi : Fin m → UInt64) :
    Passes o chi ↔ combination (fun k => (difference x v k : ZMod (2 ^ 64)))
      (fun k => ((chi k).toNat : ZMod (2 ^ 64))) = 0 := by
  have hcap : (none : Option Nat) ≠ some 0 := by simp
  have htog := @check_together n m none Ring128 (sampling (script chi)) (modularRing _) key _ _ _
    hcap hpos hn (fun _ => rfl) hm o x v (fun _ => rfl) mask a h
  constructor
  · intro hpass
    by_contra hne
    let t : Fin n → Tape := fun _ _ => zeroBytes
    obtain ⟨o', t', hend⟩ := hpass t
    obtain ⟨u, t'', h⟩ := htog t
    rw [deviation_script chi rfl, if_neg hne] at h
    have hworlds := h.eq_of_endsIn hend
    have hprograms := congrArg (fun w => (w.runners ⟨0, hpos⟩).program) hworlds
    cases hprograms
  · intro hzero t
    obtain ⟨u, t', h⟩ := htog t
    rw [deviation_script chi rfl, if_pos hzero] at h
    exact ⟨u, t', h.endsIn⟩

theorem card_passes_eq (hpos : 0 < n) (hn : 2 * n < wordRange) (hm : 0 < m)
    (h : Awaits o x v mask a) :
    Nat.card {chi : Fin m → UInt64 // Passes o chi} =
      2 ^ (64 * (m - 1)) * (2 ^ 64).gcd (Finset.univ.gcd (difference x v)) := by
  rw [pow_mul, ← card_ker_combination (by decide) hm (difference x v)]
  refine Nat.card_congr ((Equiv.arrowCongr (Equiv.refl _) words).subtypeEquiv fun chi => ?_)
  exact passes_iff hpos hn hm h chi

/-- The check passes with `2 ^ (64 * m - 57)` challenges at most just if some opening is not
wrong by a multiple of `2 ^ 8`. There are as many players as signed words can number. -/
theorem card_passes (hpos : 0 < n) (hn : 2 * n < wordRange) (hm : 0 < m)
    (h : Awaits o x v mask a) :
    Nat.card {chi : Fin m → UInt64 // Passes o chi} =
        2 ^ (64 * (m - 1)) * (2 ^ 64).gcd (Finset.univ.gcd (difference x v)) ∧
      (Nat.card {chi : Fin m → UInt64 // Passes o chi} ≤ 2 ^ (64 * m - 57) ↔
        ∃ k, ¬ 2 ^ 8 ∣ difference x v k) := by
  have hcard := card_passes_eq hpos hn hm h
  have hexp : 64 * m - 57 = 64 * (m - 1) + 7 := by omega
  refine ⟨hcard, ?_⟩
  rw [hcard, hexp, pow_add, Nat.mul_le_mul_left_iff (Nat.two_pow_pos _),
    gcd_le_iff (by decide)]

def seven : Sharing Ring128 (fun i : Fin 2 => ⟨if i.val = 0 then 2 else 3⟩) where
  secret := ⟨7⟩
  share i := ⟨⟨if i.val = 0 then 3 else 4⟩, ⟨if i.val = 0 then 9 else 26⟩⟩
  value_canonical := by decide
  mac_canonical := by decide
  total_value := by decide
  total_mac := by decide

def eleven : Sharing Ring128 (fun i : Fin 2 => ⟨if i.val = 0 then 2 else 3⟩) where
  secret := ⟨11⟩
  share i := ⟨⟨if i.val = 0 then 5 else 6⟩, ⟨if i.val = 0 then 20 else 35⟩⟩
  value_canonical := by decide
  mac_canonical := by decide
  total_value := by decide
  total_mac := by decide

def claimsSeven (v : Ring128) (i : Fin 2) : RingOpener Ring128 :=
  let o := new .aggregated ⟨if i.val = 0 then 2 else 3⟩ .default
  { o with
    base := o.base.addWaiting (seven.share i).mac v
    masks := some [eleven.share i]
    waitingShares := [(seven.share i).value] }

theorem awaits_claimsSeven (v : Ring128) :
    Awaits (claimsSeven v) (fun _ : Fin 1 => seven) (fun _ => v) eleven (.ofConfig .default) where
  keyShare _ := rfl
  values _ := rfl
  macs _ := rfl
  shares _ := rfl
  masks _ := ⟨[], rfl⟩
  aggregator _ := ⟨[], rfl⟩

theorem card_passes_claimsSeven : Awaits (claimsSeven ⟨8⟩) (fun _ : Fin 1 => seven) (fun _ => ⟨8⟩)
      eleven (.ofConfig .default) ∧
    Nat.card {chi : Fin 1 → UInt64 // Passes (claimsSeven ⟨8⟩) chi} =
        2 ^ (64 * (1 - 1)) *
          (2 ^ 64).gcd (Finset.univ.gcd (difference (fun _ : Fin 1 => seven) fun _ => ⟨8⟩)) ∧
      (Nat.card {chi : Fin 1 → UInt64 // Passes (claimsSeven ⟨8⟩) chi} ≤ 2 ^ (64 * 1 - 57) ↔
        ∃ k, ¬ 2 ^ 8 ∣ difference (fun _ : Fin 1 => seven) (fun _ => ⟨8⟩) k) :=
  ⟨awaits_claimsSeven _, card_passes (by decide) (by decide) (by decide) (awaits_claimsSeven _)⟩

def falseSeven : Ring128 := ofNat (2 ^ 63 + 7)

/-- Half of all challenges miss an opening that is wrong in the topmost bit shown. -/
theorem topmost_bit_passes :
    Awaits (claimsSeven falseSeven) (fun _ : Fin 1 => seven) (fun _ => falseSeven) eleven
        (.ofConfig .default) ∧
      falseSeven.bits.toNat < 2 ^ 64 ∧ RingElement.low seven.secret ≠ falseSeven ∧
      Nat.card {chi : Fin 1 → UInt64 // Passes (claimsSeven falseSeven) chi} = 2 ^ 63 ∧
      ¬ Nat.card {chi : Fin 1 → UInt64 // Passes (claimsSeven falseSeven) chi} ≤
        2 ^ (64 * 1 - 57) := by
  have hwaits := awaits_claimsSeven falseSeven
  have hdifference : difference (fun _ : Fin 1 => seven) (fun _ => falseSeven) 0 =
      2 ^ 128 - 2 ^ 63 := by decide +kernel
  have hgcd : (2 ^ 64).gcd (2 ^ 128 - 2 ^ 63) = 2 ^ 63 := by decide +kernel
  have hsingle : ∀ d : Fin 1 → Nat, Finset.univ.gcd d = d 0 := fun d => by simp
  have hcard := card_passes_eq (by decide) (by decide) (by decide) hwaits
  rw [hsingle, hdifference, hgcd, Nat.sub_self, Nat.mul_zero, pow_zero, one_mul] at hcard
  refine ⟨hwaits, by decide, by decide, hcard, ?_⟩
  rw [hcard]
  decide

end RingOpener

end AuthShares
