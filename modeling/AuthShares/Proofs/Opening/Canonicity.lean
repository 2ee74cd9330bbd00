import AuthShares.Proofs.Aggregation.Canonical
import AuthShares.Proofs.Element.Ranges
import AuthShares.Proofs.Opening.Commands
import AuthShares.Proofs.Opening.ErrorShares
import AuthShares.Proofs.Opening.Sessions

/-!
# Elements that are canonical

A player whose shares are canonical opens and combines canonical elements only, whatever comes from
others: what it unpacks is looked at, and operations on canonical elements stay in range. The shares
of an error are another matter. They are decoded as they are, so that another player can open any
representation, and once they are added up a sum may be out of range and pass though it is not zero.
-/

set_option autoImplicit false

namespace AuthShares

variable {n : Nat} {T : Type}

structure Share.Canonical [Element T] (s : Share T) : Prop where
  value : Element.isCanonical s.value
  mac : Element.isCanonical s.mac

def Command.Canonical [Element T] : Command T → Prop
  | .operate (.prepare share _) => share.Canonical
  | .operate (.openAll shares) => ∀ s ∈ shares, s.Canonical
  | .operate (.openOne share) => share.Canonical
  | .operate (.addToCheck share opened) => share.Canonical ∧ Element.isCanonical opened
  | _ => True

namespace Opener

structure Canonical [Element T] (o : Opener T) : Prop where
  keyShare : Element.isCanonical o.keyShare
  opened : ∀ x ∈ o.opened, Element.isCanonical x
  pendingMacs : ∀ x ∈ o.pendingMacs, Element.isCanonical x
  waitingValues : ∀ x ∈ o.waitingValues, Element.isCanonical x
  waitingMacs : ∀ x ∈ o.waitingMacs, Element.isCanonical x

namespace Canonical

section

variable [Element T] {o : Opener T}

theorem new {keyShare : T} (h : Element.isCanonical keyShare) (mode : ExchangeMode) (c : Config) :
    (new mode keyShare c).Canonical := by
  refine ⟨h, ?_, ?_, ?_, ?_⟩ <;> exact List.forall_mem_nil _

theorem clear (h : o.Canonical) (phase : Phase) : (o.clear phase).Canonical :=
  { h with
    opened := List.forall_mem_nil _
    pendingMacs := List.forall_mem_nil _ }

theorem clearWaiting (h : o.Canonical) : o.clearWaiting.Canonical :=
  { h with
    waitingValues := List.forall_mem_nil _
    waitingMacs := List.forall_mem_nil _ }

theorem prepare (h : o.Canonical) {share : Share T} (hs : share.Canonical) (len : Option Nat) :
    (o.prepare share len).Canonical := by
  have hstart : (if o.phase = .accumulating then o else o.start).Canonical := by
    split
    · exact h
    · exact h.clear _
  exact {
    hstart with
    opened := List.forall_mem_append.mpr ⟨hstart.opened, List.forall_mem_singleton.mpr hs.value⟩
    pendingMacs :=
      List.forall_mem_append.mpr ⟨hstart.pendingMacs, List.forall_mem_singleton.mpr hs.mac⟩ }

theorem prepareAll (h : o.Canonical) {shares : List (Share T)}
    (hs : ∀ s ∈ shares, s.Canonical) :
    (shares.foldl (fun o share => o.prepare share none) o).Canonical := by
  induction shares generalizing o with
  | nil => exact h
  | cons share rest ih =>
    exact ih (h.prepare (hs share (by simp)) none) fun s hmem => hs s (by simp [hmem])

theorem record (h : o.Canonical) : o.record.Canonical :=
  { h with
    pendingMacs := List.forall_mem_nil _
    waitingValues := List.forall_mem_append.mpr ⟨h.waitingValues, h.opened⟩
    waitingMacs := List.forall_mem_append.mpr ⟨h.waitingMacs, h.pendingMacs⟩ }

theorem addWaiting (h : o.Canonical) {mac opened : T} (hm : Element.isCanonical mac)
    (ho : Element.isCanonical opened) : (o.addWaiting mac opened).Canonical :=
  { h with
    waitingValues :=
      List.forall_mem_append.mpr ⟨h.waitingValues, List.forall_mem_singleton.mpr ho⟩
    waitingMacs := List.forall_mem_append.mpr ⟨h.waitingMacs, List.forall_mem_singleton.mpr hm⟩ }

theorem finish (h : o.Canonical) : o.finish.2.Canonical :=
  { h with opened := List.forall_mem_nil _ }

end

variable [MacElement T] {player : Player} {o o' : Opener T}

theorem gather (h : o.Canonical) {c : Command T} (hc : c.Canonical) : (c.gather o).Canonical := by
  cases c with
  | setTopology field n => exact ⟨h.1, h.2, h.3, h.4, h.5⟩
  | operate operation =>
    cases operation with
    | start count room =>
      simp only [Command.gather, startFor_eq _ room]
      exact h.clear _
    | prepare share len => exact h.prepare hc len
    | openAll shares => exact (h.clear _).prepareAll hc
    | openOne share => exact (h.clear _).prepare hc none
    | addToCheck share opened => exact h.addWaiting hc.1.mac hc.2
    | _ => exact h

variable [Modular T]

theorem openPending {r : Except Error Unit} (h : o.Canonical)
    (hends : (openPending player).Ends o r o') : o'.Canonical := by
  obtain ⟨_, u, hshares, hends⟩ | ⟨e, hshares, -⟩ := Action.ends_bind.mp hends
  · obtain ⟨opened, packed, -, hopened, rfl⟩ | ⟨e, packed, he, -⟩ :=
      exchangeShares_changes Summation.canonical_compositional hshares
    · cases hends
      have hsums : ({ o with opened, aggregator := { o.aggregator with packed } } :
          Opener T).Canonical := { h with opened := hopened h.opened }
      exact hsums.record
    · cases he
  · obtain ⟨_, _, hr, -⟩ | ⟨_, packed, -, rfl⟩ := exchangeShares_ends hshares
    · cases hr
    · exact { h.clear .idle with }

end Canonical

variable [MacElement T] [Modular T] [Wire T] {player : Player} {o o' : Opener T}

theorem machine_canonical : (machine (T := T) player).Preserves Command.Canonical Canonical
    (fun v => ∀ y ∈ v, Element.isCanonical y) where
  collect {c} hc o o' r h ho := by
    replace h := Action.ends_modify_bind.mp h
    split at h
    · exact (ho.gather hc).openPending h
    · cases h
      exact ho.gather hc
  check h ho := check_ends h ▸ ho.clearWaiting
  handOut {c} hc o ho := by
    rcases c with (_ | _ | _ | _ | _ | _ | _) | _ | _
    case operate.finish => exact ⟨ho.opened, ho.finish⟩
    case operate.openAll => exact ⟨ho.opened, ho.finish⟩
    case operate.openOne share =>
      -- from a batch without values the share itself is handed out
      refine ⟨List.forall_mem_singleton.mpr ?_, ho.finish⟩
      cases hopened : o.opened with
      | nil => exact hc.value
      | cons x xs => exact ho.opened x (by simp [hopened])
    all_goals exact ⟨List.forall_mem_nil _, ho⟩

omit [Wire T] in
theorem Canonical.combine_canonical (ho : o.Canonical) (g : Generator) (k : Nat) :
    Element.isCanonical
        ((combine 0 0 ((o.waitingValues.zip o.waitingMacs).take k)).run g).1.1 ∧
      Element.isCanonical
        ((combine 0 0 ((o.waitingValues.zip o.waitingMacs).take k)).run g).1.2 := by
  have hzero := Modular.zero_canonical (T := T)
  have hdraw := Modular.random_canonical (T := T)
  rw [combine_run]
  refine ⟨Modular.weighted_canonical hdraw hzero (fun x hx => ?_) g,
    Modular.weighted_canonical hdraw hzero (fun x hx => ?_) g⟩
  · obtain ⟨pair, hpair, rfl⟩ := List.mem_map.mp hx
    exact ho.waitingValues _ (List.of_mem_zip (List.mem_of_mem_take hpair)).1
  · obtain ⟨pair, hpair, rfl⟩ := List.mem_map.mp hx
    exact ho.waitingMacs _ (List.of_mem_zip (List.mem_of_mem_take hpair)).2

omit [Wire T] in
theorem Canonical.waitingError_canonical (ho : o.Canonical) (g : Generator) :
    Element.isCanonical (waitingError MacElement.random g o) := by
  have hcombined := ho.combine_canonical g (o.waitingValues.zip o.waitingMacs).length
  rw [List.take_length, combine_run] at hcombined
  exact Modular.sub_canonical hcombined.2 (Modular.mul_canonical ho.keyShare hcombined.1)

theorem Canonical.of_receives {i : Fin n}
    {log : List Deed} {shares : List T} (ho : o.Canonical) (h : o.Receives i log shares)
    (hothers : ∀ k : Fin n, k ≠ i → ∀ s, shares[k.val]? = some s → Element.isCanonical s) :
    ∀ s ∈ shares, Element.isCanonical s := by
  intro s hs
  obtain ⟨-, rfl⟩ | ⟨g, hopened⟩ := h
  · exact absurd hs List.not_mem_nil
  · obtain ⟨k, hk⟩ := List.getElem?_of_mem hs
    have hkn : k < n := hopened.length ▸ (List.getElem?_eq_some_iff.mp hk).1
    by_cases hki : (⟨k, hkn⟩ : Fin n) = i
    · have hown := hopened.own
      rw [← hki, hk] at hown
      rw [Option.some.inj hown]
      exact ho.waitingError_canonical g
    · exact hothers ⟨k, hkn⟩ hki s hk

end Opener

/-- A player computes with canonical elements when it sums the shares of a batch, whatever comes of
it, and when it combines what waits, after any number of entries and with any coefficients. With
such elements all operations stay in range. -/
structure Opener.ComputesCanonically (player : Player) (o : Opener Mersenne61) : Prop where
  unpacked {len : Option Nat} {b b' : Buffer} {y : Mersenne61} :
    (Element.unpack len).run b = (.ok y, b') → Element.isCanonical y
  sums {x : (Except Error Unit × List Mersenne61) × Aggregator} :
    (sumShares player o).Returns x → ∀ y ∈ x.1.2, Element.isCanonical y
  coefficient (g : Generator) : Element.isCanonical ((MacElement.random (T := Mersenne61)).run g).1
  combined (g : Generator) (k : Nat) :
    Element.isCanonical
        ((combine 0 0 ((o.waitingValues.zip o.waitingMacs).take k)).run g).1.1 ∧
      Element.isCanonical
        ((combine 0 0 ((o.waitingValues.zip o.waitingMacs).take k)).run g).1.2
  error (g : Generator) : Element.isCanonical (waitingError MacElement.random g o)
  faithful {x y : Mersenne61} :
    Element.isCanonical x → Element.isCanonical y → Mersenne61.Faithful x y

theorem Opener.Canonical.computes {o : Opener Mersenne61} (ho : o.Canonical) (player : Player) :
    o.ComputesCanonically player where
  unpacked := Element.unpack_canonical
  sums h := sumShares_changes Summation.canonical_compositional h ho.opened
  coefficient := Modular.random_canonical
  combined := ho.combine_canonical
  error := ho.waitingError_canonical
  faithful := Mersenne61.faithful

theorem Command.runAll_canonical [MacElement T] [Modular T] [Wire T] {player : Player}
    {o o' : Opener T} (ho : o.Canonical) {commands : List (Command T)}
    (hcommands : ∀ c ∈ commands, c.Canonical) {rs : List (Except Error (List T) × Nat)}
    (h : ((runAll player commands).run o).Returns (rs, o')) :
    (∀ x ∈ rs, ∀ v, x.1 = .ok v → ∀ y ∈ v, Element.isCanonical y) ∧ o'.Canonical := by
  rw [← Opener.noteAll_map] at h
  obtain ⟨⟨xs, u⟩, hnote, hdone⟩ := (Protocol.returns_bind
    (((Opener.machine player).noteAll commands).run o) _ _).mp h
  cases hdone
  obtain ⟨hxs, hu⟩ := Opener.machine_canonical.noteAll hcommands hnote ho
  refine ⟨fun x hx => ?_, hu⟩
  obtain ⟨remark, hmem, rfl⟩ := List.mem_map.mp hx
  exact hxs remark hmem

/-- An opener with canonical elements keeps to canonical elements, through any commands that bring
such and whatever comes from others, and so does the computing up to the shares of an error. The
shares of the others are any that they open. If these are canonical then all are, and adding them up
is right; if not, what has been added up is canonical still, and right as long as it fits into a
word. -/
theorem canonical_but_for_received_shares (i : Fin n) {o : Opener Mersenne61} (ho : o.Canonical) :
    o.ComputesCanonically (Player.numbered i) ∧
    (∀ commands rs o', (∀ c ∈ commands, c.Canonical) →
      ((Command.runAll (Player.numbered i) commands).run o).Returns (rs, o') →
      (∀ x ∈ rs, ∀ v, x.1 = .ok v → ∀ y ∈ v, Element.isCanonical y) ∧ o'.Canonical) ∧
    (∀ c r o', c.Canonical → ((Opener.machine (Player.numbered i)).collect c).Ends o r o' →
      o'.Canonical) ∧
    Opener.check (T := Mersenne61) (Player.numbered i) = (do
      let shares ← Opener.openErrors (Player.numbered i)
      Opener.judge shares) ∧
    ∀ t log shares o' t', Trail (.start ((Opener.openErrors (Player.numbered i)).run.run o) t) log
        (.start (.done (.ok shares, o')) t') →
      o.Receives i log shares ∧ Mersenne61.AddsUp shares ∧
      ((∀ k : Fin n, k ≠ i → ∀ s, shares[k.val]? = some s → Element.isCanonical s) →
        ∀ s ∈ shares, Element.isCanonical s) := by
  refine ⟨ho.computes _, fun commands rs o' hcommands h => ?_, fun c r o' hc h => ?_,
    Opener.check_eq _, fun t log shares o' t' h => ?_⟩
  · exact Command.runAll_canonical ho hcommands h
  · exact Opener.machine_canonical.collect hc h ho
  · have hreceives := Opener.receives_of_openErrors h
    exact ⟨hreceives, Mersenne61.addsUp shares, ho.of_receives hreceives⟩

def zeroKey : Fin 2 → Mersenne61 := fun _ => 0

def Sharing.unkeyedSeven : Sharing Mersenne61 zeroKey where
  secret := ⟨7⟩
  share := ![⟨⟨5⟩, 0⟩, ⟨⟨2⟩, 0⟩]
  value_canonical := by decide
  mac_canonical := by decide
  total_value := by decide
  total_mac := by decide

theorem Opener.waitingError_eq_zero {o : Opener Mersenne61} {v : Mersenne61}
    (hkey : o.keyShare = 0) (hvalues : o.waitingValues = [v]) (hmacs : o.waitingMacs = [0])
    (g : Generator) : waitingError MacElement.random g o = 0 := by
  have hmul (x : Mersenne61) : x * 0 = 0 := Mersenne61.mul_eq_ofNat x 0
  have hzero (x : Mersenne61) : 0 * x = 0 := by
    rw [Mersenne61.mul_eq_ofNat, show (0 : Mersenne61).rep.toNat = 0 from rfl, Nat.zero_mul]
    rfl
  rw [waitingError, hkey, hvalues, hmacs, hzero]
  show 0 + _ * 0 - 0 = (0 : Mersenne61)
  rw [hmul]
  rfl

/-- Two players wait with a value. Both follow the protocol in opening their shares of the error. -/
theorem canonical_but_for_received_shares_two :
    ∃ log, Opened (0 : Fin 2) "MAC check" (0 : Mersenne61) log [0, 0] ∧
      Mersenne61.AddsUp [0, 0] ∧ ∀ s ∈ [(0 : Mersenne61), 0], Element.isCanonical s := by
  let o : Opener Mersenne61 := (Opener.new .direct 0 ⟨0, 0, 0, 1000⟩).addWaiting 0 ⟨7⟩
  let tape : Fin 2 → Tape := fun _ _ => zeroBytes
  have ho : o.Canonical := by
    refine Opener.Canonical.addWaiting (.new ?_ _ _) ?_ ?_ <;> decide
  have herror : ∀ g, Opener.waitingError MacElement.random g o = 0 :=
    Opener.waitingError_eq_zero rfl rfl rfl
  have hnone : (none : Option Nat) ≠ some 0 := by decide
  have hw : o.waiting ≠ 0 := by decide
  obtain ⟨o', hacc⟩ := Opener.openAmong_accord (i := 0) (o := fun _ => o) (t := tape) hnone
    (by decide) hw (fun _ : Fin 2 => 0) (herror _).symm
  obtain ⟨s, hs, hr⟩ := World.Together.reached hacc
  have htrail := hs.sound.trail 0 (Finset.mem_univ 0)
  obtain ⟨t', ht⟩ := htrail.ended (hr 0)
  rw [ht] at htrail
  obtain ⟨-, -, -, -, hchecks⟩ := canonical_but_for_received_shares (0 : Fin 2) ho
  obtain ⟨hreceives, hadds, hall⟩ := hchecks _ _ _ _ _ htrail
  obtain ⟨hw, -⟩ | ⟨g, hopened⟩ := hreceives
  · exact absurd hw (by decide)
  · rw [herror] at hopened
    refine ⟨_, hopened, hadds, hall fun k _ x hx => ?_⟩
    have hmem : x ∈ [(0 : Mersenne61), 0] := List.mem_of_getElem? hx
    simp only [List.mem_cons, List.not_mem_nil, or_false, or_self] at hmem
    rw [hmem]
    decide

/-- Two players open a value and check it. The second one opens the modulus as its share of the
error, which is decoded as it is and not canonical, and the check of the first one passes. Among
three players one can open one and another one the largest word. They do not fit into a word any
more, and the check passes too, though the shares do not sum to zero. -/
theorem noncanonical_share_passes :
    (∃ o t, Accord none (fun i : Fin 2 => do
        let opened ← Opener.openAll (Player.numbered i) [Sharing.unkeyedSeven.share i]
        let shares ← Opener.openAmong 0 ![0, ⟨Mersenne61.modulus⟩] i
        return (opened, shares))
      (fun _ => .new .direct 0 ⟨0, 0, 0, 1000⟩) (fun _ _ => zeroBytes)
      (fun _ => ([⟨7⟩], [0, ⟨Mersenne61.modulus⟩])) o t) ∧
    ¬ Element.isCanonical (⟨Mersenne61.modulus⟩ : Mersenne61) ∧
    (∃ o t, Accord none (Opener.openAmong (0 : Fin 3) ![0, 1, ⟨18446744073709551615⟩])
      (fun _ => (Opener.new .direct 0 ⟨0, 0, 0, 1000⟩).addWaiting 0 ⟨7⟩) (fun _ _ => zeroBytes)
      (fun _ => [0, 1, (⟨18446744073709551615⟩ : Mersenne61)]) o t) ∧
    ([0, 1, (⟨18446744073709551615⟩ : Mersenne61)].map
      (Modular.residue Mersenne61.modulus.toNat)).sum ≠ 0 ∧
    (∀ player, Opener.check (T := Mersenne61) player = (do
      let shares ← Opener.openErrors player
      Opener.judge shares)) ∧
    Opener.judge [0, (⟨Mersenne61.modulus⟩ : Mersenne61)] = pure () ∧
    Opener.judge [0, 1, (⟨18446744073709551615⟩ : Mersenne61)] = pure () := by
  have hnone : (none : Option Nat) ≠ some 0 := by decide
  refine ⟨?_, by decide, ?_, ?_, Opener.check_eq, if_pos (by decide), if_pos (by decide)⟩
  · have hkey : ∀ i, Element.isCanonical (zeroKey i) := by decide
    -- as the key is zero, so is the error, whatever coins are tossed
    obtain ⟨o, t, hopen, h⟩ := openAll_reflects hnone (by decide) (by decide) hkey
      (Reflects.new .direct ⟨0, 0, 0, 1000⟩) [Sharing.unkeyedSeven] fun _ _ => zeroBytes
    have herror : ∀ g, Opener.waitingError MacElement.random g (o 0) = 0 :=
      Opener.waitingError_eq_zero (h 0).keyShare (h 0).waitingValues (h 0).waitingMacs
    have hw : (o 0).waiting ≠ 0 := by
      rw [(h 0).waiting]
      decide
    obtain ⟨o', hshares⟩ := Opener.openAmong_accord hnone (by decide) hw (t := t)
      ![0, ⟨Mersenne61.modulus⟩] (herror _).symm
    exact ⟨o', _, hopen.bind (hshares.bind (Accord.pure _ _ _))⟩
  · let o : Opener Mersenne61 := (Opener.new .direct 0 ⟨0, 0, 0, 1000⟩).addWaiting 0 ⟨7⟩
    have hw : o.waiting ≠ 0 := by decide
    obtain ⟨o', hshares⟩ := Opener.openAmong_accord (i := 0) (o := fun _ => o)
      (t := fun _ _ => zeroBytes) hnone (by decide) hw ![0, 1, ⟨18446744073709551615⟩]
      (Opener.waitingError_eq_zero rfl rfl rfl _).symm
    exact ⟨o', _, hshares⟩
  · have hsum (q : Nat) : ([0, 1, (⟨18446744073709551615⟩ : Mersenne61)].map
        (Modular.residue q)).sum = ((18446744073709551616 : Nat) : ZMod q) := by
      show ((0 : Nat) : ZMod q) + (((1 : Nat) : ZMod q) +
        (((18446744073709551615 : Nat) : ZMod q) + 0)) = _
      rw [add_zero, ← Nat.cast_add, ← Nat.cast_add]
    rw [hsum, Ne, ZMod.natCast_eq_zero_iff]
    decide

end AuthShares
