import Mathlib.Tactic.Ring
import AuthShares.Proofs.Opening.RingVerdicts

/-!
# What the mask hides

What a player adds to the combination that a check opens is masked above its lower half. A change
of the shares above their lower halves can be made up for by another mask. So over all masks the
players add the same values, each equally often, whatever those upper halves are; and what they
open depends on the challenges and on the lower halves of the secrets alone.
-/

set_option autoImplicit false

namespace AuthShares

open scoped BigOperators

variable {n m : Nat}

namespace Ring128

theorem add_sub_cancel (x y : Ring128) : x + y - y = x :=
  congrArg Ring128.mk (BitVec.add_sub_cancel x.bits y.bits)

theorem sub_add_cancel (x y : Ring128) : x - y + y = x :=
  congrArg Ring128.mk (BitVec.sub_add_cancel x.bits y.bits)

def translate (d : Fin n → Ring128) : (Fin n → Ring128) ≃ (Fin n → Ring128) where
  toFun r i := r i + d i
  invFun r i := r i - d i
  left_inv r := funext fun i => add_sub_cancel (r i) (d i)
  right_inv r := funext fun i => sub_add_cancel (r i) (d i)

theorem translate_apply (d r : Fin n → Ring128) (i : Fin n) : translate d r i = r i + d i := rfl

end Ring128

namespace RingOpener

open Ring128 Modular

section

variable {T : Type} [RingElement T] [ModularRing T] {chi : Fin m → T}

theorem combinedSum_eq_cast (q : Nat) (chi : Fin m → T) (x : Fin n → Fin m → T) :
    combinedSum q chi x = ((∑ k, rep (chi k) * ∑ i, rep (x i k) : Nat) : ZMod q) := by
  simp only [combinedSum, residue, Nat.cast_sum, Nat.cast_mul]

/-- Combinations that show the same differ by something shifted. -/
theorem exists_shifted {x x' : Fin n → Fin m → T}
    (h : combinedSum (ModularRing.shown T) chi x = combinedSum (ModularRing.shown T) chi x') :
    ∃ d : T, combinedSum (modulus T) chi x =
      combinedSum (modulus T) chi x' + ModularRing.shown T * residue (modulus T) d := by
  rw [combinedSum_eq_cast, combinedSum_eq_cast, ZMod.natCast_eq_natCast_iff] at h
  obtain ⟨c, hc⟩ := Nat.modEq_iff_dvd.mp h.symm
  have : NeZero (modulus T) := ⟨ModularRing.modulus_pos.ne'⟩
  have hres : residue (modulus T) (Modular.ofNat (c : ZMod (modulus T)).val : T) = c := by
    rw [residue_ofNat dvd_rfl, ZMod.natCast_zmod_val]
  have hcast := congrArg (Int.cast : Int → ZMod (modulus T)) hc
  simp only [Int.cast_sub, Int.cast_mul, Int.cast_natCast] at hcast
  refine ⟨Modular.ofNat (c : ZMod (modulus T)).val, ?_⟩
  rw [hres, combinedSum_eq_cast, combinedSum_eq_cast, ← hcast]
  ring

theorem combinedSum_congr {q : Nat} {x x' : Fin n → Fin m → T}
    (h : ∀ k, ∑ i, residue q (x i k) = ∑ i, residue q (x' i k)) :
    combinedSum q chi x = combinedSum q chi x' :=
  Finset.sum_congr rfl fun k _ => congrArg _ (h k)

end

variable {x x' : Fin n → Fin m → Ring128} {sample : StateM Generator UInt64} {g : Generator}

def added (sample : StateM Generator UInt64) (g : Generator) (x : Fin n → Fin m → Ring128)
    (mask : Fin n → Ring128) (i : Fin n) : Ring128 :=
  @maskedShare n m Ring128 (sampling sample) x mask g i

theorem feed_sampling (sample : StateM Generator UInt64) (player : Player) (y : Ring128) :
    @feed Ring128 (sampling sample) player y = feed player y := rfl

theorem conclude_sampling (sample : StateM Generator UInt64) (player : Player)
    (key value mac opened : Ring128) :
    @conclude Ring128 (sampling sample) _ _ player key value mac opened =
      conclude player key value mac opened := rfl

theorem Holds.checkWith_run {key : Fin n → Ring128} {v : Fin m → Ring128}
    {mac : Fin n → Fin m → Ring128} {mask : Fin n → Share Ring128} {a : Aggregator}
    {o : Fin n → RingOpener Ring128} (h : Holds o key v x mac mask a) (hm : 0 < m) {i : Fin n}
    {rest : List (Share Ring128)} (hrest : (o i).masks = some (mask i :: rest))
    (sample : StateM Generator UInt64) (player : Player) :
    (checkWith sample player).run.run (o i) = (do
      let g ← Interaction.tossCoins player
      let opened ← feed player (added sample g x (fun i => (mask i).value) i)
      conclude player (key i) (weighted (sampling sample).challenge 0 (List.ofFn v) g)
        (added sample g mac (fun i => (mask i).mac) i) opened :
          Action (RingOpener Ring128) Unit).run.run
      ((o i).spent rest (o i).base.aggregator) := by
  have hrun := @Holds.check_run n m Ring128 (sampling sample) o key v x mac mask a _ _ h hm i rest
    hrest player
  simp only [feed_sampling, conclude_sampling] at hrun
  exact hrun

/-- The sum of what some players add. -/
theorem residue_total_added (x : Fin n → Fin m → Ring128) (mask : Fin n → Ring128) :
    residue (modulus Ring128) (Element.total (List.ofFn (added sample g x mask))) =
      combinedSum (modulus Ring128) (@challenges Ring128 (sampling sample) m g) x +
        ModularRing.shown Ring128 * ∑ i, residue (modulus Ring128) (mask i) :=
  (residue_total_ofFn (T := Ring128) dvd_rfl fun _ => rfl).trans
    (@residue_maskedShare n m Ring128 (sampling sample) (modularRing sample) _ dvd_rfl x
      (fun _ _ => rfl) mask g)

theorem residue_added (x : Fin n → Fin m → Ring128) (mask : Fin n → Ring128) (i : Fin n) :
    residue (modulus Ring128) (added sample g x mask i) =
      combinedSum (modulus Ring128) (@challenges Ring128 (sampling sample) m g)
          (fun _ : Fin 1 => x i) +
        ModularRing.shown Ring128 * residue (modulus Ring128) (mask i) := by
  have hone := @residue_maskedShare 1 m Ring128 (sampling sample) (modularRing sample)
    (modulus Ring128) dvd_rfl (fun _ => x i) (fun _ _ => rfl) (fun _ => mask i) g
  simp only [Fin.sum_univ_one] at hone
  exact hone

theorem challenges_eq_of_sampled {sample' : StateM Generator UInt64} {g' : Generator}
    (h : sampled sample m g = sampled sample' m g') :
    @challenges Ring128 (sampling sample) m g = @challenges Ring128 (sampling sample') m g' :=
  funext fun k => eq_of_toNat (congrFun h k)

/-- Under the same challenges, shares that agree in their lower halves are added alike under
another mask. -/
theorem exists_added_translate {sample' : StateM Generator UInt64} {g' : Generator}
    (hchi : sampled sample m g = sampled sample' m g')
    (h : ∀ i k, RingElement.low (x i k) = RingElement.low (x' i k)) :
    ∃ d : Fin n → Ring128, ∀ mask,
      added sample g x mask = added sample' g' x' (translate d mask) := by
  let chi := @challenges Ring128 (sampling sample) m g
  have hlow : ∀ i, combinedSum (ModularRing.shown Ring128) chi (fun _ : Fin 1 => x i) =
      combinedSum (ModularRing.shown Ring128) chi fun _ : Fin 1 => x' i := fun i =>
    combinedSum_congr fun k => Finset.sum_congr rfl fun _ _ =>
      (ModularRing.low_eq_low_iff (x i k) (x' i k)).mp (h i k)
  choose d hd using fun i => exists_shifted (hlow i)
  refine ⟨d, fun mask => funext fun i => Modular.eq_of_residue (T := Ring128) rfl rfl ?_⟩
  rw [residue_added, residue_added, ← challenges_eq_of_sampled hchi, hd i, translate_apply,
    residue_add dvd_rfl rfl rfl]
  ring

/-- Under the same challenges, shares of secrets that agree in their lower halves open alike
under another mask. -/
theorem exists_total_translate {sample' : StateM Generator UInt64} {g' : Generator}
    (hpos : 0 < n) (hchi : sampled sample m g = sampled sample' m g')
    (h : ∀ k, RingElement.low (Element.total (List.ofFn fun i => x i k)) =
      RingElement.low (Element.total (List.ofFn fun i => x' i k))) :
    ∃ d : Fin n → Ring128, ∀ mask, Element.total (List.ofFn (added sample g x mask)) =
      Element.total (List.ofFn (added sample' g' x' (translate d mask))) := by
  let chi := @challenges Ring128 (sampling sample) m g
  have hshown := ModularRing.shown_dvd (T := Ring128)
  have hlow : combinedSum (ModularRing.shown Ring128) chi x =
      combinedSum (ModularRing.shown Ring128) chi x' := combinedSum_congr fun k => by
    rw [← residue_total_ofFn hshown fun _ => rfl, ← residue_total_ofFn hshown fun _ => rfl]
    exact (ModularRing.low_eq_low_iff _ _).mp (h k)
  obtain ⟨d, hd⟩ := exists_shifted hlow
  -- One player makes up for the whole difference.
  let first : Fin n := ⟨0, hpos⟩
  let e : Fin n → Ring128 := fun i => if i = first then d else 0
  have hsum : ∑ i, residue (modulus Ring128) (e i) = residue (modulus Ring128) d := by
    rw [Finset.sum_eq_single first (fun i _ hi => ?_) fun hno => absurd (Finset.mem_univ _) hno]
    · exact congrArg _ (if_pos rfl)
    · rw [show e i = 0 from if_neg hi, residue_zero dvd_rfl]
  refine ⟨e, fun mask => Modular.eq_of_residue (T := Ring128) rfl rfl ?_⟩
  have hmask : ∑ i, residue (modulus Ring128) (translate e mask i) =
      ∑ i, residue (modulus Ring128) (mask i) + residue (modulus Ring128) d := by
    rw [← hsum, ← Finset.sum_add_distrib]
    exact Finset.sum_congr rfl fun i _ => residue_add dvd_rfl rfl rfl
  rw [residue_total_added, residue_total_added, ← challenges_eq_of_sampled hchi, hd, hmask]
  ring

/-- As many masks lead to one outcome as to the other. -/
theorem card_translate {p p' : (Fin n → Ring128) → Prop} (d : Fin n → Ring128)
    (h : ∀ mask, p mask ↔ p' (translate d mask)) :
    Nat.card {mask // p mask} = Nat.card {mask // p' mask} :=
  Nat.card_congr ((translate d).subtypeEquiv h)

def Opens (o : Fin n → RingOpener Ring128) (y : Fin n → Ring128) (z : Ring128) : Prop :=
  ∀ t : Fin n → Tape, ∃ o' : Fin n → RingOpener Ring128, World.EndsIn none
    (World.start (fun i => (feed (Player.numbered i) (y i)).run.run (o i)) t .empty)
    (World.start (fun i => .done (.ok z, o' i)) t .empty)

theorem opens_iff (hpos : 0 < n) (hn : 2 * n < wordRange) {a : Aggregator}
    {o : Fin n → RingOpener Ring128} (ha : ∀ i, ∃ packed, (o i).base.aggregator = { a with packed })
    (y : Fin n → Ring128) (z : Ring128) : Opens o y z ↔ Element.total (List.ofFn y) = z := by
  have hcap : (none : Option Nat) ≠ some 0 := by simp
  have htog : ∀ t, ∃ o' : Fin n → RingOpener Ring128, Accord none
      (fun i => feed (Player.numbered i) (y i)) o t (fun _ => Element.total (List.ofFn y)) o' t :=
    fun t => (feed_together hcap hpos hn (fun _ => rfl) ha t).imp' _ fun _ => id
  constructor
  · intro h
    let t : Fin n → Tape := fun _ _ => zeroBytes
    obtain ⟨o', hacc⟩ := htog t
    obtain ⟨o'', hend⟩ := h t
    have hvalues := congrFun (World.Together.values_eq hacc hend) ⟨0, hpos⟩
    exact Except.ok.inj (Prod.ext_iff.mp hvalues).1
  · rintro rfl t
    obtain ⟨o', hacc⟩ := htog t
    exact ⟨o', World.Together.endsIn hacc⟩

/-- Each player of a check adds a masked combination, and all of them open what they add. Over
all masks they add any values equally often as with other shares that agree in their lower halves,
and they open any value equally often as with shares of other secrets that do. The challenges are
any that are drawn or given, the same in both. There are as many players as signed words can
number. -/
theorem masks_hide {sample' : StateM Generator UInt64} {g' : Generator} (hpos : 0 < n)
    (hn : 2 * n < wordRange) (hchi : sampled sample m g = sampled sample' m g') :
    (∀ {key : Fin n → Ring128} {v : Fin m → Ring128} {mac : Fin n → Fin m → Ring128}
        {mask : Fin n → Share Ring128} {a : Aggregator} {o : Fin n → RingOpener Ring128}
        {i : Fin n} {rest : List (Share Ring128)}, Holds o key v x mac mask a → 0 < m →
      (o i).masks = some (mask i :: rest) →
      (checkWith sample (Player.numbered i)).run.run (o i) = (do
        let g ← Interaction.tossCoins (Player.numbered i)
        let opened ← feed (Player.numbered i) (added sample g x (fun i => (mask i).value) i)
        conclude (Player.numbered i) (key i)
          (weighted (sampling sample).challenge 0 (List.ofFn v) g)
          (added sample g mac (fun i => (mask i).mac) i) opened :
            Action (RingOpener Ring128) Unit).run.run
        ((o i).spent rest (o i).base.aggregator)) ∧
    ((∀ i k, RingElement.low (x i k) = RingElement.low (x' i k)) → ∀ y : Fin n → Ring128,
      Nat.card {mask // added sample g x mask = y} =
        Nat.card {mask // added sample' g' x' mask = y}) ∧
    ((∀ k, RingElement.low (Element.total (List.ofFn fun i => x i k)) =
        RingElement.low (Element.total (List.ofFn fun i => x' i k))) →
      ∀ {a : Aggregator} {o : Fin n → RingOpener Ring128},
        (∀ i, ∃ packed, (o i).base.aggregator = { a with packed }) →
        (∀ mask, ∃! z, Opens o (added sample g x mask) z) ∧
        ∀ z, Nat.card {mask // Opens o (added sample g x mask) z} =
          Nat.card {mask // Opens o (added sample' g' x' mask) z}) := by
  refine ⟨?_, fun h y => ?_, fun h a o ha => ⟨fun mask => ?_, fun z => ?_⟩⟩
  · intro _ _ _ _ _ _ _ _ h hm hrest
    rw [h.checkWith_run hm hrest]
  · obtain ⟨d, hd⟩ := exists_added_translate hchi h
    exact card_translate d fun mask => by rw [hd mask]
  · simp only [opens_iff hpos hn ha]
    exact existsUnique_eq'
  · obtain ⟨d, hd⟩ := exists_total_translate hpos hchi h
    simp only [opens_iff hpos hn ha]
    exact card_translate d fun mask => by rw [hd mask]

def hiddenShare (i : Fin 2) (_ : Fin 1) : Ring128 :=
  ⟨if i.val = 0 then 18446744073709551619 else 4⟩

/-- The masks do not tell a share that is wrong in a bit which does not show from a right one. -/
theorem masks_hide_hiddenSeven :
    Holds hiddenSeven (fun i => ⟨if i.val = 0 then 2 else 3⟩) (fun _ : Fin 1 => ⟨7⟩) hiddenShare
        (fun i _ => (seven.share i).mac) eleven.share (.ofConfig .default) ∧
      hiddenShare 0 0 ≠ (seven.share 0).value ∧
      ∀ (chi : Fin 1 → UInt64) (g : Generator),
        (∀ i, (checkWith (script chi) (Player.numbered i)).run.run (hiddenSeven i) = (do
          let g ← Interaction.tossCoins (Player.numbered i)
          let opened ← feed (Player.numbered i)
            (added (script chi) g hiddenShare (fun i => (eleven.share i).value) i)
          conclude (Player.numbered i) ⟨if i.val = 0 then 2 else 3⟩
            (weighted (sampling (script chi)).challenge 0 (List.ofFn fun _ : Fin 1 => ⟨7⟩) g)
            (added (script chi) g (fun i (_ : Fin 1) => (seven.share i).mac)
              (fun i => (eleven.share i).mac) i) opened :
                Action (RingOpener Ring128) Unit).run.run
            ((hiddenSeven i).spent [] (hiddenSeven i).base.aggregator)) ∧
        (∀ y, Nat.card {mask // added (script chi) g hiddenShare mask = y} =
          Nat.card {mask //
            added (script chi) g (fun i (_ : Fin 1) => (seven.share i).value) mask = y}) ∧
        ∀ z, Nat.card {mask // Opens hiddenSeven (added (script chi) g hiddenShare mask) z} =
          Nat.card {mask // Opens hiddenSeven
            (added (script chi) g (fun i (_ : Fin 1) => (seven.share i).value) mask) z} := by
  refine ⟨holds_hiddenSeven, by decide, fun chi g => ?_⟩
  obtain ⟨hrun, hadded, hopened⟩ := @masks_hide 2 1 hiddenShare
    (fun i _ => (seven.share i).value) (script chi) g (script chi) g (by decide) (by decide) rfl
  have hlow : ∀ (i : Fin 2) (k : Fin 1),
      RingElement.low (hiddenShare i k) = RingElement.low (seven.share i).value := by decide
  have htotal : ∀ k : Fin 1, RingElement.low (Element.total (List.ofFn fun i => hiddenShare i k)) =
      RingElement.low (Element.total (List.ofFn fun i => (seven.share i).value)) := by decide
  have hmasks : ∀ i, (hiddenSeven i).masks = some [eleven.share i] := fun _ => rfl
  refine ⟨fun i => ?_, hadded hlow, (hopened htotal holds_hiddenSeven.aggregator).2⟩
  rw [hrun holds_hiddenSeven (by decide) (hmasks i)]

end RingOpener

end AuthShares
