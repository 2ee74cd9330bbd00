import AuthShares.Proofs.Opening.HandingOut
import AuthShares.Proofs.Opening.RingBalance

/-!
# Openers over a ring in lockstep

Players who carry out the same operations have openers of one shape, however their elements
differ. What an exchange opens is the same for all of them in its lower half, so the same values
wait everywhere, and all come to one verdict in a check. One ledger serves all of them.
-/

set_option autoImplicit false

namespace AuthShares

open scoped BigOperators

variable {n : Nat} {capacity : Option Nat}

namespace Opener

structure SendsLows (u : Opener Unit) : Prop where
  visible : ∀ len ∈ u.lengths, len = some (RingElement.visibleBytes Ring128)
  length : u.phase = .accumulating ∨ u.opened ≠ [] → u.lengths.length = u.opened.length

namespace SendsLows

variable {u : Opener Unit}

theorem fits (h : SendsLows u) : Element.Fits Ring128 u.sentLengths := by
  have hlengths : Element.Fits Ring128 u.lengths := fun len hlen => by
    rw [h.visible len hlen]
    decide
  unfold sentLengths Aggregator.usedLengths
  split
  · split
    · exact hlengths
    · exact Element.Fits.nil
  · exact hlengths

theorem shown_dvd (h : SendsLows u) {k : Nat} (hk : k < u.opened.length)
    (x : Fin n → List Ring128) :
    ModularRing.shown Ring128 ∣ Element.precision u.sentLengths x k := by
  have hne : u.opened ≠ [] := List.ne_nil_of_length_pos (by omega)
  have hlen := h.length (.inr hne)
  refine Element.dvd_precision ModularRing.shown_dvd ?_
  rw [sentLengths_eq hlen, Element.widthAt, List.getD_eq_getElem _ _ (by omega),
    h.visible _ (List.getElem_mem _)]
  decide

end SendsLows

end Opener

def lowSums (m : Nat) (x : Fin n → List Ring128) : List Ring128 :=
  List.ofFn fun k : Fin m =>
    RingElement.low (Element.total (List.ofFn fun j => (x j).getD k 0))

theorem Shows.map_low {q : Nat → Nat} {m : Nat} {x : Fin n → List Ring128} {v : List Ring128}
    (h : Shows q m x v fun _ => Finset.univ)
    (hq : ∀ k < m, ModularRing.shown Ring128 ∣ q k) : v.map RingElement.low = lowSums m x := by
  refine List.ext_getElem (by simp [lowSums, h.length]) fun k hk hk' => ?_
  have hkv : k < v.length := by simpa using hk
  have hkm : k < m := h.length ▸ hkv
  have hres := congrArg (ZMod.castHom (hq k hkm) (ZMod (ModularRing.shown Ring128)))
    (h.residue k hkm)
  have hcast : ∀ a : Ring128, ZMod.castHom (hq k hkm) (ZMod (ModularRing.shown Ring128))
      (Modular.residue (q k) a) = Modular.residue (ModularRing.shown Ring128) a :=
    fun a => map_natCast _ _
  rw [map_sum, Finset.sum_congr rfl fun i _ => hcast _, hcast,
    List.getD_eq_getElem _ _ hkv] at hres
  simp only [lowSums, List.getElem_map, List.getElem_ofFn]
  rw [ModularRing.low_eq_low_iff, Modular.residue_total_ofFn ModularRing.shown_dvd fun _ => rfl]
  exact hres

namespace RingOpener

variable {u : Opener Unit} {o : Fin n → RingOpener Ring128}

/-- Players in lockstep always succeed with an exchange of shares; everyone has the lower halves of
the sums. -/
theorem exchangeShares_alike (hcap : capacity ≠ some 0) (hpos : 0 < n) (hn : 2 * n < wordRange)
    (h : Opener.Alike u fun i => (o i).base) (hlows : u.SendsLows) (t : Fin n → Tape) :
    ∃ (v : Fin n → List Ring128) (aggregator : Fin n → Aggregator), Accord capacity
        (fun i => exchangeShares (Player.numbered i)) o t (fun _ => ())
        (fun i => { o i with
          base := { (o i).base with opened := v i, aggregator := aggregator i } }) t ∧
      (∀ i, (v i).length = (o i).base.opened.length ∧
        (v i).map RingElement.low = lowSums u.opened.length fun j => (o j).base.opened) ∧
      ∀ i, ∃ packed, aggregator i = { (o i).base.aggregator with packed } := by
  obtain ⟨r, v, aggregator, htog, ha, hfault, hv⟩ := Opener.sumShares_alike hcap hpos hn h t
  cases r with
  | error e => exact absurd hlows.fits (hfault e rfl)
  | ok a =>
    refine ⟨v, aggregator, Accord.tryCatch (Accord.zoom (Opener.exchangeShares_of_sums htog)) _,
      fun i => ⟨?_, ?_⟩, ha⟩
    · exact (hv rfl i).length.trans (h.length_opened i).symm
    · exact (hv rfl i).map_low fun k hk => hlows.shown_dvd hk _

/-- Whatever the elements are that the players hold, the same values wait everywhere, with as many
shares, and there are as many masks. -/
structure Matched (o : Fin n → RingOpener Ring128) : Prop where
  waitingValues (i j : Fin n) : (o i).base.waitingValues = (o j).base.waitingValues
  waitingShares (i j : Fin n) : (o i).waitingShares.length = (o j).waitingShares.length
  masks (i j : Fin n) : (o i).masks.map List.length = (o j).masks.map List.length

def fault? (o : RingOpener Ring128) : Option Error :=
  if o.Even then
    match o.masks.map List.length with
    | none => some .missingPreprocessing
    | some 0 => some .preprocessingExhausted
    | some (_ + 1) => none
  else some .inconsistentOpening

theorem fault_eq_none {o : RingOpener Ring128} (h : o.fault? = none) :
    o.Even ∧ ∃ mask rest, o.masks = some (mask :: rest) := by
  unfold fault? at h
  by_cases heven : o.Even
  · rw [if_pos heven] at h
    match hmasks : o.masks with
    | none => simp [hmasks] at h
    | some [] => simp [hmasks] at h
    | some (mask :: rest) => exact ⟨heven, mask, rest, rfl⟩
  · simp [heven] at h

theorem check_run_of_fault {o : RingOpener Ring128} (hwaiting : o.waiting ≠ 0) {e : Error}
    (h : o.fault? = some e) (player : Player) : (check player).run.run o =
      .done (.error e, { o with base := o.base.clearWaiting, waitingShares := [] }) := by
  have hset : (set { o with base := o.base.clearWaiting, waitingShares := [] } :
      Action (RingOpener Ring128) Unit).run.run o =
        .done (.ok (), { o with base := o.base.clearWaiting, waitingShares := [] }) := rfl
  unfold check
  rw [Action.run_bind_done (Action.run_get o)]
  simp only [hwaiting, ↓reduceIte]
  rw [Action.run_bind_done hset]
  unfold fault? at h
  by_cases heven : o.Even
  · rw [if_pos heven] at h
    unfold Even at heven
    obtain ⟨base, masks, pendingShares, waitingShares⟩ := o
    match masks, h with
    | none, h =>
      cases h
      simp only [heven, and_self, ↓reduceIte]
      rfl
    | some [], h =>
      cases h
      simp only [heven, and_self, ↓reduceIte]
      rfl
  · rw [if_neg heven] at h
    cases h
    unfold Even at heven
    simp only [heven, ↓reduceIte]
    rfl

theorem Matched.fault_eq (h : Matched o) (hbase : Opener.Alike u fun i => (o i).base)
    (i j : Fin n) : (o i).fault? = (o j).fault? := by
  have hmacs : ∀ i, (o i).base.waitingMacs.length = u.waitingMacs.length := fun i => by
    rw [← hbase.shape i]
    exact (List.length_map _).symm
  have heven : (o i).Even ↔ (o j).Even := by
    unfold Even
    rw [h.waitingValues i j, h.waitingShares i j, hmacs i, hmacs j]
  simp only [fault?, heven, h.masks i j]

theorem ofFn_getD {l : List Ring128} {m : Nat} (h : l.length = m) :
    (List.ofFn fun k : Fin m => l.getD k 0) = l :=
  List.ext_getElem (by simp [h]) fun k _ hk => by
    rw [List.getElem_ofFn, List.getD_eq_getElem _ _ hk]

/-- Where the same values wait with as many shares and authentications, the players hold them. -/
theorem Matched.holds (h : Matched o) (hbase : Opener.Alike u fun i => (o i).base)
    (heven : ∀ i, (o i).Even) (j : Fin n) {mask : Fin n → Share Ring128}
    {rest : Fin n → List (Share Ring128)} (hmasks : ∀ i, (o i).masks = some (mask i :: rest i)) :
    Holds o (fun i => (o i).base.keyShare)
      (fun k : Fin (o j).base.waitingValues.length => (o j).base.waitingValues.getD k 0)
      (fun i k => (o i).waitingShares.getD k 0) (fun i k => (o i).base.waitingMacs.getD k 0)
      mask u.aggregator := by
  have hvalues : ∀ i, (o i).base.waitingValues = (o j).base.waitingValues := fun i =>
    h.waitingValues i j
  have hlen : ∀ i, (o i).waitingShares.length = (o j).base.waitingValues.length := fun i => by
    rw [← (heven i).1, hvalues i]
  exact {
    keyShare := fun _ => rfl
    values := fun i => (hvalues i).trans (ofFn_getD rfl).symm
    macs := fun i => (ofFn_getD ((heven i).2.trans (hlen i))).symm
    shares := fun i => (ofFn_getD (hlen i)).symm
    masks := fun i => ⟨rest i, hmasks i⟩
    aggregator := fun i => ⟨_, hbase.aggregator i⟩
    key_canonical := fun _ => rfl
    value_canonical := fun _ => rfl
    share_canonical := fun _ _ => rfl
    mac_canonical := fun _ _ => rfl }

/-- Players in lockstep come to one verdict in a check, and have as many masks after it. -/
theorem check_alike (hcap : capacity ≠ some 0) (hpos : 0 < n) (hn : 2 * n < wordRange)
    (hbase : Opener.Alike u fun i => (o i).base) (h : Matched o) (t : Fin n → Tape) :
    ∃ (r : Except Error Unit) (o' : Fin n → RingOpener Ring128) (t' : Fin n → Tape),
      World.Together capacity (fun i => (check (Player.numbered i)).run.run (o i)) t
        (fun i => (r, o' i)) t' ∧
      ∀ i j, (o' i).masks.map List.length = (o' j).masks.map List.length := by
  let first : Fin n := ⟨0, hpos⟩
  by_cases hzero : u.waiting = 0
  · refine ⟨.ok (), o, t, Accord.bind_done (fun i => Action.run_get (o i)) ?_, h.masks⟩
    simp only [waiting, hbase.waiting, hzero, ↓reduceIte]
    exact Accord.pure _ _ t
  · have hwaiting : ∀ i, (o i).waiting ≠ 0 := fun i => by rwa [waiting, hbase.waiting]
    -- lengths decide what fails before anything is sent, so it fails everywhere or nowhere
    cases hfault : (o first).fault? with
    | some e =>
      refine ⟨.error e, fun i => { o i with
        base := (o i).base.clearWaiting, waitingShares := [] }, t, ?_, h.masks⟩
      simp only [fun i => check_run_of_fault (hwaiting i) ((h.fault_eq hbase i first).trans hfault)]
      exact World.Together.pure _ t
    | none =>
      have hnone := fun i => fault_eq_none ((h.fault_eq hbase i first).trans hfault)
      have hready := fun i => (hnone i).1
      choose mask rest hmasks using fun i => (hnone i).2
      have hholds := h.holds hbase hready first hmasks
      have hmpos : 0 < (o first).base.waitingValues.length := by
        have := hwaiting first
        rw [hholds.waiting first] at this
        omega
      obtain ⟨packed, t', htog⟩ := hholds.check_together hcap hpos hn hmpos hmasks t
      refine ⟨_, _, t', htog, fun i j => ?_⟩
      have hij := h.masks i j
      rw [hmasks i, hmasks j] at hij
      simpa [spent] using hij

end RingOpener

namespace Opener.SendsLows

variable {u : Opener Unit}

theorem start (u : Opener Unit) : SendsLows u.start where
  visible _ h := absurd h List.not_mem_nil
  length _ := rfl

theorem prepare (h : SendsLows u) :
    SendsLows (u.prepare ⟨(), ()⟩ (some (RingElement.visibleBytes Ring128))) := by
  by_cases hp : u.phase = .accumulating
  · rw [prepare_eq_append hp]
    exact ⟨List.forall_mem_append.mpr ⟨h.visible, List.forall_mem_singleton.mpr rfl⟩,
      fun _ => by simp [h.length (.inl hp)]⟩
  · rw [prepare_eq_single hp]
    exact ⟨List.forall_mem_singleton.mpr rfl, fun _ => rfl⟩

theorem record (h : SendsLows u) : SendsLows u.record where
  visible := h.visible
  length hp := h.length (.inr (hp.resolve_left fun hp => by cases hp))

theorem finish (h : SendsLows u) : SendsLows u.finish.2 where
  visible := h.visible
  length hp := hp.elim (fun hp => by cases hp) fun hne => absurd rfl hne

end Opener.SendsLows

namespace RingLedger

variable (x : RingLedger n) (share : Fin n → Share Ring128)

theorem prepare_given : (x.prepare share).given = x.given ++ [.prepared share] := by
  unfold prepare
  split <;> rfl

theorem prepare_batches : (x.prepare share).batches = x.batches := by
  unfold prepare
  split <;> rfl

theorem prepare_waitingValues :
    (x.prepare share).origins.base.waitingValues = x.origins.base.waitingValues := by
  by_cases hp : x.origins.base.phase = .accumulating
  · rw [prepare_collects hp]
  · rw [prepare_start hp, prepare_collects rfl]
    rfl

end RingLedger

/-- The batch of shares that all players have collected opens to the lower halves of its sums. -/
theorem RingLedger.Matches.lowSums (hpos : 0 < n) {x : RingLedger n} {es : List Nat}
    {xs : Fin n → List Ring128} (h : ∀ i, x.Matches
      (fun g a => ∃ share, g = .prepared share ∧ (share i).value = a) es (xs i)) :
    x.Matches (fun g a => g.opening = a) es (lowSums es.length xs) := by
  refine List.forall₂_iff_get.mpr ⟨by simp [AuthShares.lowSums], fun k hk hk' => ?_⟩
  have hlen : ∀ i, k < (xs i).length := fun i => by rwa [← (h i).length_eq]
  choose g hg share hshare hvalue using fun i => (List.forall₂_iff_get.mp (h i)).2 k hk (hlen i)
  have hsame : ∀ i, share i = share ⟨0, hpos⟩ := fun i => by
    have hgi := (hg i).symm.trans (hg ⟨0, hpos⟩)
    rw [hshare, hshare] at hgi
    exact Given.prepared.inj (Option.some.inj hgi)
  refine ⟨_, hg ⟨0, hpos⟩, ?_⟩
  have hvalues : (fun i => (share ⟨0, hpos⟩ i).value) = fun i => (xs i).getD k 0 := by
    funext i
    rw [List.getD_eq_getElem _ _ (hlen i), ← hsame i]
    exact hvalue i
  rw [hshare]
  show RingElement.low (Element.total (List.ofFn fun i => (share ⟨0, hpos⟩ i).value)) = _
  rw [hvalues]
  simp [AuthShares.lowSums]

theorem Traces.even_iff {i : Fin n} {o : RingOpener Ring128} {x : RingLedger n}
    (h : Traces i o x) : o.Even ↔ x.origins.Even := by
  rw [RingOpener.Even, RingOpener.Even, h.waitingValues, ← h.waitingMacs.length_eq,
    ← h.waitingShares.length_eq]

structure Abreast (u : Opener Unit) (x : RingLedger n) (o : Fin n → RingOpener Ring128) : Prop where
  traces (i : Fin n) : Traces i (o i) x
  alike : Opener.Alike u fun i => (o i).base
  lows : u.SendsLows
  values (i j : Fin n) : (o i).base.waitingValues = (o j).base.waitingValues
  masks (i j : Fin n) : (o i).masks.map List.length = (o j).masks.map List.length
  openings (i : Fin n) : x.Balanced →
    x.Matches (fun g a => g.opening = a) x.origins.base.waitingValues (o i).base.waitingValues

namespace Abreast

variable {u : Opener Unit} {x : RingLedger n} {o o' : Fin n → RingOpener Ring128}

theorem matched (h : Abreast u x o) : RingOpener.Matched o where
  waitingValues := h.values
  waitingShares i j := by
    rw [← (h.traces i).waitingShares.length_eq, (h.traces j).waitingShares.length_eq]
  masks := h.masks

theorem new (mode : ExchangeMode) (c : Config) (key : Fin n → Ring128) :
    Abreast (Opener.new mode () c) .new fun i => .new mode (key i) c where
  traces i := .new mode (key i) c
  alike := ⟨fun _ => rfl, fun _ _ h => absurd h List.not_mem_nil⟩
  lows := ⟨fun _ h => absurd h List.not_mem_nil, fun _ => rfl⟩
  values _ _ := rfl
  masks _ _ := rfl
  openings _ _ := .nil

theorem setMasks (h : Abreast u x o) (masks : List (Fin n → Share Ring128)) :
    Abreast u x fun i => (o i).setMasks (masks.map (· i)) where
  traces i := (h.traces i).setMasks _
  alike := h.alike
  lows := h.lows
  values := h.values
  masks i j := by simp [RingOpener.setMasks]
  openings := h.openings

theorem start (h : Abreast u x o) : Abreast u.start x.start fun i => (o i).start where
  traces i := (h.traces i).start
  alike := h.alike.start
  lows := .start u
  values := h.values
  masks := h.masks
  openings := h.openings

theorem prepare (h : Abreast u x o) (share : Fin n → Share Ring128) :
    Abreast (u.prepare ⟨(), ()⟩ (some (RingElement.visibleBytes Ring128))) (x.prepare share)
      fun i => (o i).prepare (share i) where
  traces i := (h.traces i).prepare share
  alike := by
    simp only [RingOpener.prepare_base]
    exact h.alike.prepare ⟨share, fun _ => rfl⟩ _
  lows := h.lows.prepare
  values i j := by
    simp only [RingOpener.prepare_base, Opener.prepare_waitingValues]
    exact h.values i j
  masks i j := by
    simp only [RingOpener.prepare_masks]
    exact h.masks i j
  openings i hb := by
    rw [RingOpener.prepare_base, Opener.prepare_waitingValues, RingLedger.prepare_waitingValues]
    rw [RingLedger.Balanced, RingLedger.prepare_batches] at hb
    exact (h.openings i hb).mono ⟨[_], (x.prepare_given share).symm⟩

theorem prepareAll (h : Abreast u x o) (shares : List (Fin n → Share Ring128)) :
    ∃ u', Abreast u' (shares.foldl RingLedger.prepare x)
      fun i => (shares.map (· i)).foldl RingOpener.prepare (o i) := by
  induction shares generalizing u x o with
  | nil => exact ⟨u, h⟩
  | cons share rest ih => exact ih (h.prepare share)

theorem finish (h : Abreast u x o) : Abreast u.finish.2 x.finish fun i => (o i).finish.2 where
  traces i := (h.traces i).finish
  alike := h.alike.finish
  lows := h.lows.finish
  values := h.values
  masks := h.masks
  openings := h.openings

theorem addWaiting (h : Abreast u x o) (share : Fin n → Share Ring128) (opened : Ring128) :
    Abreast (u.addWaiting () ()) (x.addWaiting share opened) fun i => { o i with
      base := (o i).base.addWaiting (share i).mac (RingElement.low opened)
      waitingShares := (o i).waitingShares ++ [(share i).value] } where
  traces i := (h.traces i).addWaiting share opened
  alike := h.alike.change (f := (·.addWaiting () ())) (fun _ => Opener.shape_addWaiting _ _ _)
    fun _ _ hy => hy
  lows := ⟨h.lows.visible, h.lows.length⟩
  values i j := congrArg (· ++ _) (h.values i j)
  masks := h.masks
  openings _ hb := (h.openings _ hb).concat rfl rfl

/-- If as many values as authentications are put in wait, the values are the openings of their
shares. -/
theorem batch_opens (h : Abreast u x o) (hpos : 0 < n)
    (hlen : x.origins.base.opened.length = x.origins.base.pendingMacs.length) :
    x.Matches (fun g a => g.opening = a) x.origins.base.opened
      (lowSums u.opened.length fun j => (o j).base.opened) := by
  have hsize : u.opened.length = x.origins.base.opened.length := by
    rw [← h.alike.length_opened ⟨0, hpos⟩, (h.traces _).opened]
  have hsound := (h.traces ⟨0, hpos⟩).sound
  rw [hsize]
  by_cases hp : x.origins.base.phase = .accumulating
  · exact RingLedger.Matches.lowSums hpos fun i =>
      (h.traces i).collected ((h.traces i).phase.trans hp)
  · have hnil : x.origins.base.opened = [] := by
      cases hphase : x.origins.base.phase with
      | accumulating => exact absurd hphase hp
      | exchanged =>
        rw [hsound.shown hphase] at hlen
        exact List.length_eq_zero_iff.mp hlen
      | idle => exact hsound.idle hphase
    rw [hnil]
    exact .nil

theorem record (h : Abreast u x o) (hpos : 0 < n) {v : Fin n → List Ring128}
    {aggregator : Fin n → Aggregator}
    (hv : ∀ i, (v i).length = (o i).base.opened.length ∧
      (v i).map RingElement.low = lowSums u.opened.length fun j => (o j).base.opened)
    (ha : ∀ i, ∃ packed, aggregator i = { (o i).base.aggregator with packed }) :
    Abreast u.record x.exchange fun i => RingOpener.record { o i with
      base := { (o i).base with opened := v i, aggregator := aggregator i } } where
  traces i := by
    have hrecord := (h.traces i).record (hv i).1 (aggregator i)
    rw [(hv i).1, (h.traces i).opened, ← (h.traces i).pendingMacs.length_eq] at hrecord
    exact hrecord
  alike :=
    { shape := fun i => by
        rw [← h.alike.shape i]
        refine (Opener.shape_record _).trans
          (congrArg Opener.record (Opener.shape_replace (o i).base ?_ (ha i)))
        rw [List.length_map, (hv i).1]
      canonical := fun _ _ _ => rfl }
  lows := h.lows.record
  values i j := by
    show (o i).base.waitingValues ++ (v i).map RingElement.low =
      (o j).base.waitingValues ++ (v j).map RingElement.low
    rw [h.values i j, (hv i).2, (hv j).2]
  masks := h.masks
  openings i hb := by
    obtain ⟨hx, hlen⟩ := RingLedger.balanced_record.mp hb
    show x.Matches _ (x.origins.base.waitingValues ++ x.origins.base.opened)
      ((o i).base.waitingValues ++ (v i).map RingElement.low)
    rw [(hv i).2]
    exact (h.openings i hx).append (h.batch_opens hpos hlen)

theorem spend (h : Abreast u x o) (hspends : ∀ i, (o i).Spends (o' i))
    (hmasks : ∀ i j, (o' i).masks.map List.length = (o' j).masks.map List.length) :
    Abreast u.clearWaiting (if u.waiting = 0 then x else x.clear) o' := by
  have hwaiting : ∀ i, (o i).waiting = u.waiting := h.alike.waiting
  have htraces : ∀ i, Traces i (o' i) (if u.waiting = 0 then x else x.clear) := fun i =>
    hwaiting i ▸ (h.traces i).spend (hspends i)
  by_cases hzero : u.waiting = 0
  · rw [if_pos hzero] at htraces ⊢
    have hsame : o' = o := funext fun i => by
      have := hspends i
      rwa [RingOpener.Spends, if_pos ((hwaiting i).trans hzero)] at this
    rw [Opener.clearWaiting_of_waiting_eq_zero hzero, hsame]
    exact h
  · rw [if_neg hzero] at htraces ⊢
    have hstate : ∀ i, ∃ masks packed, o' i = { o i with
        base := { (o i).base.clearWaiting with
          aggregator := { (o i).base.aggregator with packed } }
        masks
        waitingShares := [] } := fun i => by
      have := hspends i
      rwa [RingOpener.Spends, if_neg fun h => hzero ((hwaiting i).symm.trans h)] at this
    choose masks packed hstate using hstate
    obtain rfl : o' = _ := funext hstate
    exact
      { traces := htraces
        alike := h.alike.change (f := Opener.clearWaiting)
          (fun i => (Opener.shape_replace (o i).base.clearWaiting rfl ⟨_, rfl⟩).trans
            (Opener.shape_clearWaiting _)) fun _ _ hy => hy
        lows := ⟨h.lows.visible, h.lows.length⟩
        values := fun _ _ => rfl
        masks := hmasks
        openings := fun _ _ => .nil }

end Abreast

end AuthShares
