import AuthShares.Proofs.Aggregation.Calls
import AuthShares.Proofs.Opening.Batches

/-!
# What a check over the ring comes to

Players can come to a check over the ring with any shares, any shares of authentications and
any mask behind the openings that they have in common. They open one masked combination of the
shares, so all of them come to the same verdict: the low part of the combination has to agree
with the openings, and then its authentication has to be right.
-/

set_option autoImplicit false

namespace AuthShares

open scoped BigOperators

variable {n m : Nat} {capacity : Option Nat} {T : Type}

theorem Aggregator.sumOne_together [MacElement T] [Modular T] (hcap : capacity ≠ some 0)
    (hpos : 0 < n) (hn : 2 * n < wordRange) (a : Aggregator) {x : Fin n → T}
    (hx : ∀ i, Element.isCanonical (x i)) (packed : Fin n → Bytes) (t : Fin n → Tape) :
    ∃ packed' : Fin n → Bytes, Accord capacity
      (fun i => Aggregator.sumOne (Player.numbered i) (x i))
      (fun i => { a with packed := packed i }) t (fun _ => Element.total (List.ofFn x))
      (fun i => { a with packed := packed' i }) t := by
  obtain ⟨packed', h⟩ := Batch.sum_together hcap hpos hn a
    ⟨1, fun i => [x i], fun _ => rfl, fun i y hy => List.mem_singleton.mp hy ▸ hx i⟩ packed t
  have hsum : (Modular.ofNat (∑ j, Modular.rep (x j)) : T) = Element.total (List.ofFn x) := by
    refine Modular.eq_of_residue (Modular.ofNat_canonical _) (Modular.total_ofFn_canonical hx) ?_
    rw [Modular.residue_ofNat dvd_rfl, Modular.residue_total_ofFn dvd_rfl hx, Nat.cast_sum]
    rfl
  have hacc : Accord capacity (fun i => Aggregator.sum (Player.numbered i) [] [x i])
      (fun i => { a with packed := packed i }) t
      (fun _ => [(Modular.ofNat (∑ j, Modular.rep (x j)) : T)])
      (fun i => { a with packed := packed' i }) t := h
  rw [← hsum]
  exact ⟨packed', hacc.bind (Accord.pure _ _ t)⟩

/-- The players hold the openings `v`, shares and shares of authentications behind them, and a
mask, whatever they are. Their aggregators are set up alike. -/
structure RingOpener.Holds [MacElement T] (o : Fin n → RingOpener T) (key : Fin n → T)
    (v : Fin m → T) (share mac : Fin n → Fin m → T) (mask : Fin n → Share T) (a : Aggregator) :
    Prop where
  keyShare (i : Fin n) : (o i).base.keyShare = key i
  values (i : Fin n) : (o i).base.waitingValues = List.ofFn v
  macs (i : Fin n) : (o i).base.waitingMacs = List.ofFn (mac i)
  shares (i : Fin n) : (o i).waitingShares = List.ofFn (share i)
  masks (i : Fin n) : ∃ rest, (o i).masks = some (mask i :: rest)
  aggregator (i : Fin n) : ∃ packed, (o i).base.aggregator = { a with packed }
  key_canonical (i : Fin n) : Element.isCanonical (key i)
  value_canonical (k : Fin m) : Element.isCanonical (v k)
  share_canonical (i : Fin n) (k : Fin m) : Element.isCanonical (share i k)
  mac_canonical (i : Fin n) (k : Fin m) : Element.isCanonical (mac i k)

namespace RingOpener

open AuthShares.Modular

variable [RingElement T] {o : Fin n → RingOpener T} {key : Fin n → T} {v : Fin m → T}
  {share mac : Fin n → Fin m → T} {mask : Fin n → Share T} {a : Aggregator}

theorem Holds.waiting (h : Holds o key v share mac mask a) (i : Fin n) : (o i).waiting = m := by
  rw [RingOpener.waiting, Opener.waiting, h.values i, h.macs i, List.length_ofFn,
    List.length_ofFn, max_self]

theorem Holds.combine_run (h : Holds o key v share mac mask a) (i : Fin n) (g : Generator) :
    ((combine 0 0 0 ((o i).base.waitingValues.zip
        ((o i).waitingShares.zip (o i).base.waitingMacs))).run g).1 =
      (weighted RingElement.challenge 0 (List.ofFn v) g,
        weighted RingElement.challenge 0 (List.ofFn (share i)) g,
        weighted RingElement.challenge 0 (List.ofFn (mac i)) g) := by
  have hzip : (o i).base.waitingValues.zip ((o i).waitingShares.zip (o i).base.waitingMacs) =
      List.ofFn fun k => (v k, share i k, mac i k) := by
    rw [h.values i, h.macs i, h.shares i]
    exact List.ext_getElem (by simp) fun k _ _ => by simp
  rw [RingOpener.combine_run, hzip, List.map_ofFn, List.map_ofFn, List.map_ofFn]
  rfl

def maskedShare (x : Fin n → Fin m → T) (mask : Fin n → T) (g : Generator) (i : Fin n) : T :=
  weighted RingElement.challenge 0 (List.ofFn (x i)) g + RingElement.shift (mask i)

def maskedOpening (share : Fin n → Fin m → T) (mask : Fin n → Share T) (g : Generator) : T :=
  Element.total (List.ofFn (maskedShare share (fun i => (mask i).value) g))

def maskedError (key : Fin n → T) (share mac : Fin n → Fin m → T) (mask : Fin n → Share T)
    (g : Generator) (i : Fin n) : T :=
  maskedShare mac (fun i => (mask i).mac) g i - key i * maskedOpening share mask g

def judged [DecidableEq T] (key : Fin n → T) (v : Fin m → T) (share mac : Fin n → Fin m → T)
    (mask : Fin n → Share T) (g : Generator) : Except Error Unit :=
  if RingElement.low (maskedOpening share mask g) =
      RingElement.low (weighted RingElement.challenge 0 (List.ofFn v) g) then
    if MacElement.isZero (Element.total (List.ofFn (maskedError key share mac mask g))) then .ok ()
    else .error .macCheckFailed
  else .error .inconsistentOpening

def spent (o : RingOpener T) (rest : List (Share T)) (aggregator : Aggregator) : RingOpener T :=
  { o with
    base := { o.base.clearWaiting with aggregator }
    masks := some rest
    waitingShares := [] }

def feed (player : Player) (x : T) : Action (RingOpener T) T :=
  onBase (Action.zoom (·.aggregator) (fun o aggregator => { o with aggregator })
    (Aggregator.sumOne player x))

def conclude [Wire T] [DecidableEq T] (player : Player) (keyShare value mac opened : T) :
    Action (RingOpener T) Unit :=
  if RingElement.low opened = RingElement.low value then
    Opener.checkZero player "ring MAC check" (mac - keyShare * opened)
  else
    throw .inconsistentOpening

/-- A check takes out all that waits and a mask, tosses coins, opens the masked combination of
the shares and judges by it. -/
theorem Holds.check_run [Wire T] [DecidableEq T] (h : Holds o key v share mac mask a) (hm : 0 < m)
    {i : Fin n} {rest : List (Share T)} (hrest : (o i).masks = some (mask i :: rest))
    (player : Player) :
    (check player).run.run (o i) = (do
      let g ← Interaction.tossCoins player
      let opened ← feed player (maskedShare share (fun i => (mask i).value) g i)
      conclude player (key i) (weighted RingElement.challenge 0 (List.ofFn v) g)
        (maskedShare mac (fun i => (mask i).mac) g i) opened : Action (RingOpener T) Unit).run.run
      ((o i).spent rest (o i).base.aggregator) := by
  have hwaiting : (o i).waiting ≠ 0 := by
    rw [h.waiting i]
    omega
  have hlengths : (o i).base.waitingValues.length = (o i).waitingShares.length ∧
      (o i).base.waitingMacs.length = (o i).waitingShares.length := by
    simp [h.values i, h.macs i, h.shares i]
  rw [check, Action.run_bind_done (Action.run_get (o i))]
  simp only [hwaiting, hlengths, and_self, ↓reduceIte]
  let cleared : RingOpener T :=
    { o i with base := (o i).base.clearWaiting, waitingShares := [] }
  have hset : (set cleared : Action (RingOpener T) Unit).run.run (o i) =
      .done (.ok (), cleared) := rfl
  rw [Action.run_bind_done hset]
  have hmask : (takeMask : Action (RingOpener T) (Share T)).run.run cleared =
      .done (.ok (mask i), { cleared with masks := some rest }) := by
    rw [takeMask, Action.run_bind_done (Action.run_get cleared)]
    simp only [cleared, hrest]
    rfl
  rw [Action.run_bind_done hmask]
  simp only [h.combine_run, h.keyShare]
  rfl

theorem conclude_together [Wire T] [LawfulWire T] [DecidableEq T] (hcap : capacity ≠ some 0)
    (hn : n < wordRange) (key : Fin n → T) (v : Fin m → T) (share mac : Fin n → Fin m → T)
    (mask : Fin n → Share T) (g : Generator) (s : Fin n → RingOpener T) (t : Fin n → Tape) :
    ∃ t', World.Together capacity (fun i =>
      (conclude (Player.numbered i) (key i) (weighted RingElement.challenge 0 (List.ofFn v) g)
        (maskedShare mac (fun i => (mask i).mac) g i) (maskedOpening share mask g)).run.run (s i)) t
      (fun i => (judged key v share mac mask g, s i)) t' := by
  unfold conclude judged
  split
  · exact ⟨_, World.Together.bind (Opener.checkZero_verdict hcap hn "ring MAC check"
      (maskedError key share mac mask g) t) (World.Together.pure _ _)⟩
  · exact ⟨t, World.Together.pure _ t⟩

variable [ModularRing T]

theorem maskedShare_canonical {x : Fin n → Fin m → T} (hx : ∀ i k, Element.isCanonical (x i k))
    (mask : Fin n → T) (g : Generator) (i : Fin n) :
    Element.isCanonical (maskedShare x mask g i) :=
  add_canonical (weighted_ofFn_canonical ModularRing.challenge_canonical (hx i) g)
    (ModularRing.shift_canonical _)

/-- All players open the sum of what they add. -/
theorem feed_together (hcap : capacity ≠ some 0) (hpos : 0 < n) (hn : 2 * n < wordRange)
    {x : Fin n → T} (hx : ∀ i, Element.isCanonical (x i)) {s : Fin n → RingOpener T}
    (hs : ∀ i, ∃ packed, (s i).base.aggregator = { a with packed }) (t : Fin n → Tape) :
    ∃ packed' : Fin n → Bytes, Accord capacity (fun i => feed (Player.numbered i) (x i)) s t
      (fun _ => Element.total (List.ofFn x))
      (fun i => { s i with
        base := { (s i).base with aggregator := { a with packed := packed' i } } }) t := by
  choose packed hpacked using hs
  obtain ⟨packed', hsum⟩ := Aggregator.sumOne_together hcap hpos hn a hx packed t
  rw [← funext hpacked] at hsum
  unfold feed onBase
  exact ⟨packed', Accord.zoom (Accord.zoom hsum)⟩

/-- The check has one verdict for all players; it discards all values and uses up one mask. -/
theorem Holds.check_together [Wire T] [LawfulWire T] [DecidableEq T] (hcap : capacity ≠ some 0)
    (hpos : 0 < n) (hn : 2 * n < wordRange) (hm : 0 < m) (h : Holds o key v share mac mask a)
    {rest : Fin n → List (Share T)} (hrest : ∀ i, (o i).masks = some (mask i :: rest i))
    (t : Fin n → Tape) :
    ∃ (packed' : Fin n → Bytes) (t' : Fin n → Tape), World.Together capacity
      (fun i => (check (Player.numbered i)).run.run (o i)) t
      (fun i => (judged key v share mac mask (Interaction.commonCoins t),
        (o i).spent (rest i) { a with packed := packed' i })) t' := by
  have hn' : n < wordRange := by omega
  let g := Interaction.commonCoins t
  let cleared : Fin n → RingOpener T := fun i => (o i).spent (rest i) (o i).base.aggregator
  obtain ⟨packed', hfeed⟩ := feed_together (s := cleared) hcap hpos hn
    (maskedShare_canonical h.share_canonical (fun i => (mask i).value) g) h.aggregator
    fun i => (t i).tail.tail
  obtain ⟨t', hend⟩ := conclude_together hcap hn' key v share mac mask g
    (fun i => (o i).spent (rest i) { a with packed := packed' i }) fun i => (t i).tail.tail
  refine ⟨packed', t', ?_⟩
  rw [funext fun i => h.check_run hm (hrest i) (Player.numbered i)]
  exact Accord.thenDo (Accord.interaction (Interaction.tossCoins_together hcap hn' t) cleared)
    (Accord.thenDo hfeed hend)

def combinedSum (q : Nat) (chi : Fin m → T) (x : Fin n → Fin m → T) : ZMod q :=
  ∑ k, residue q (chi k) * ∑ i, residue q (x i k)

def maskedSum (chi : Fin m → T) (x : Fin n → Fin m → T) (mask : Fin n → T) : ZMod (modulus T) :=
  combinedSum (modulus T) chi x + ModularRing.shown T * ∑ i, residue (modulus T) (mask i)

/-- The openings have to agree with the shares as far as they show, and the masked combination
has to be authenticated under the key. -/
def verdict (key : Fin n → T) (v : Fin m → T) (share mac : Fin n → Fin m → T)
    (mask : Fin n → Share T) (chi : Fin m → T) : Except Error Unit :=
  if combinedSum (ModularRing.shown T) chi share =
      ∑ k, residue (ModularRing.shown T) (chi k) * residue (ModularRing.shown T) (v k) then
    if maskedSum chi mac (fun i => (mask i).mac) =
        (∑ i, residue (modulus T) (key i)) * maskedSum chi share fun i => (mask i).value then .ok ()
    else .error .macCheckFailed
  else .error .inconsistentOpening

def challenges (m : Nat) (g : Generator) (k : Fin m) : T := stream RingElement.challenge k g

theorem residue_maskedShare {q : Nat} (hq : q ∣ modulus T) {x : Fin n → Fin m → T}
    (hx : ∀ i k, Element.isCanonical (x i k)) (mask : Fin n → T) (g : Generator) :
    ∑ i, residue q (maskedShare x mask g i) =
      combinedSum q (challenges m g) x + ModularRing.shown T * ∑ i, residue q (mask i) := by
  have hdraw := ModularRing.challenge_canonical (T := T)
  have hterm : ∀ i, residue q (maskedShare x mask g i) =
      ∑ k, residue q (challenges m g k) * residue q (x i k) +
        ModularRing.shown T * residue q (mask i) := fun i => by
    rw [maskedShare, residue_add hq (weighted_ofFn_canonical hdraw (hx i) g)
      (ModularRing.shift_canonical _), residue_weighted hq hdraw zero_canonical (hx i),
      residue_zero hq, zero_add, ModularRing.residue_shift hq]
    rfl
  rw [Finset.sum_congr rfl fun i _ => hterm i, Finset.sum_add_distrib, Finset.sum_comm,
    ← Finset.mul_sum, combinedSum, Finset.sum_congr rfl fun k _ => (Finset.mul_sum ..).symm]

theorem Holds.residue_maskedOpening {q : Nat} (hq : q ∣ modulus T)
    (h : Holds o key v share mac mask a) (g : Generator) :
    residue q (maskedOpening share mask g) = combinedSum q (challenges m g) share +
      ModularRing.shown T * ∑ i, residue q (mask i).value := by
  rw [maskedOpening, residue_total_ofFn hq (maskedShare_canonical h.share_canonical _ g),
    residue_maskedShare hq h.share_canonical]

theorem Holds.low_eq_iff (h : Holds o key v share mac mask a) (g : Generator) :
    RingElement.low (maskedOpening share mask g) =
        RingElement.low (weighted RingElement.challenge 0 (List.ofFn v) g) ↔
      combinedSum (ModularRing.shown T) (challenges (T := T) m g) share =
        ∑ k, residue (ModularRing.shown T) (challenges (T := T) m g k) *
          residue (ModularRing.shown T) (v k) := by
  have hshown := ModularRing.shown_dvd (T := T)
  rw [ModularRing.low_eq_low_iff, h.residue_maskedOpening hshown, ZMod.natCast_self, zero_mul,
    add_zero, residue_weighted hshown ModularRing.challenge_canonical zero_canonical
      h.value_canonical, residue_zero hshown, zero_add]
  rfl

theorem Holds.isZero_total_iff (h : Holds o key v share mac mask a) (g : Generator) :
    MacElement.isZero (Element.total (List.ofFn (maskedError key share mac mask g))) ↔
      maskedSum (challenges m g) mac (fun i => (mask i).mac) =
        (∑ i, residue (modulus T) (key i)) *
          maskedSum (challenges m g) share fun i => (mask i).value := by
  have hopening : Element.isCanonical (maskedOpening share mask g) :=
    total_ofFn_canonical (maskedShare_canonical h.share_canonical _ g)
  have hmac := maskedShare_canonical h.mac_canonical (fun i => (mask i).mac) g
  have hproduct := fun i => mul_canonical (h.key_canonical i) hopening
  have herror : ∀ i, Element.isCanonical (maskedError key share mac mask g i) :=
    fun i => sub_canonical (hmac i) (hproduct i)
  have hterm : ∀ i, residue (modulus T) (maskedError key share mac mask g i) =
      residue (modulus T) (maskedShare mac (fun i => (mask i).mac) g i) -
        residue (modulus T) (key i) * residue (modulus T) (maskedOpening share mask g) :=
    fun i => by
      rw [maskedError, residue_sub dvd_rfl (hmac i) (hproduct i),
        residue_mul dvd_rfl (h.key_canonical i) hopening]
  rw [isZero_iff_residue (total_ofFn_canonical herror), residue_total_ofFn dvd_rfl herror,
    Finset.sum_congr rfl fun i _ => hterm i, Finset.sum_sub_distrib, ← Finset.sum_mul,
    residue_maskedShare dvd_rfl h.mac_canonical, h.residue_maskedOpening dvd_rfl, sub_eq_zero]
  rfl

theorem Holds.judged_eq [DecidableEq T] (h : Holds o key v share mac mask a) (g : Generator) :
    judged key v share mac mask g = verdict key v share mac mask (challenges m g) := by
  simp only [judged, verdict, h.low_eq_iff, h.isZero_total_iff]

end RingOpener

end AuthShares
