import AuthShares.Proofs.Aggregation.Sizes
import AuthShares.Proofs.Network.Likeness
import AuthShares.Proofs.Opening.RingSessions

/-!
# What partial openings show

Of a share only the low bytes are sent, and what is received is only added or put in its place. So
two batches with the same low halves are opened in the same way, whatever their upper halves are:
all players send the same messages and open the same values. The upper halves of the sums that
players keep on the way may differ, but they never show.
-/

set_option autoImplicit false

namespace AuthShares

variable {n : Nat} {capacity : Option Nat}

namespace Ring128

theorem low_eq_iff_mod {x y : Ring128} :
    RingElement.low x = RingElement.low y ↔ x.bits.toNat % 2 ^ 64 = y.bits.toNat % 2 ^ 64 := by
  have hlt : ∀ z : Ring128, z.bits.toNat % 2 ^ 64 < 2 ^ 128 := fun z =>
    (Nat.mod_lt _ (by decide)).trans (by decide)
  rw [low_eq_ofNat, low_eq_ofNat]
  refine ⟨fun h => ?_, fun h => by rw [h]⟩
  have hbits := congrArg (fun z => z.bits.toNat) h
  simpa only [toNat_ofNat, Nat.mod_eq_of_lt (hlt _)] using hbits

theorem low_add_congr {x y : Ring128} (h : RingElement.low x = RingElement.low y) (z : Ring128) :
    RingElement.low (x + z) = RingElement.low (y + z) := by
  have hshown : (2 : Nat) ^ 64 ∣ 2 ^ 128 := ⟨2 ^ 64, rfl⟩
  rw [low_eq_iff_mod] at h ⊢
  rw [add_eq_ofNat, add_eq_ofNat, toNat_ofNat, toNat_ofNat, Nat.mod_mod_of_dvd _ hshown,
    Nat.mod_mod_of_dvd _ hshown]
  exact Nat.ModEq.add_right _ h

theorem packed_congr {x y : Ring128} (h : RingElement.low x = RingElement.low y) :
    Element.packed (some (RingElement.visibleBytes Ring128)) x =
      Element.packed (some (RingElement.visibleBytes Ring128)) y := by
  rw [packed_visible, packed_visible, toLittleEndian_eq_iff]
  exact low_eq_iff_mod.mp h

end Ring128

def visible (count : Nat) : List (Option Nat) :=
  List.replicate count (some (RingElement.visibleBytes Ring128))

namespace Message

theorem fields_congr {xs ys : List Ring128} {count : Nat} (hcount : xs.length ≤ count)
    (h : xs.map RingElement.low = ys.map RingElement.low) :
    fields (visible count) xs = fields (visible count) ys := by
  induction xs generalizing ys count with
  | nil => rw [List.map_eq_nil_iff.mp h.symm]
  | cons x xs ih =>
    obtain ⟨y, ys, rfl, hxy, hrest⟩ := List.map_eq_cons_iff.mp h.symm
    obtain ⟨count, rfl⟩ : ∃ c, count = c + 1 := ⟨count - 1, by simp at hcount; omega⟩
    have hle : xs.length ≤ count := by simpa using hcount
    show Element.packed (some _) x ++ fields (visible count) xs =
      Element.packed (some _) y ++ fields (visible count) ys
    rw [Ring128.packed_congr hxy.symm, ih hle hrest.symm]

theorem slice_congr {xs ys : List Ring128} (h : xs.map RingElement.low = ys.map RingElement.low)
    (start stop : Nat) : ((xs.drop start).take (stop - start)).map RingElement.low =
      ((ys.drop start).take (stop - start)).map RingElement.low := by
  rw [List.map_take, List.map_drop, h, List.map_take, List.map_drop]

theorem encodeRange_congr {xs ys : List Ring128}
    (h : xs.map RingElement.low = ys.map RingElement.low) (start stop : Nat) :
    encodeRange (visible xs.length) start stop xs =
      encodeRange (visible xs.length) start stop ys := by
  have hfields := fields_congr (by simp : _ ≤ xs.length - start) (slice_congr h start stop)
  simp only [encodeRange, encode, visible, List.drop_replicate]
  exact congrArg (· ++ _) hfields

/-- What is read does not depend on the value it is added to, and is added as it is. -/
theorem readOne_run (combine : Combine) (len : Option Nat) (x : Ring128) (b : Buffer) :
    (readOne combine len x).run b =
      (((Element.unpack len : Reader Ring128).run b).1.map fun z =>
        match combine with
        | .add => x + z
        | .replace => z,
       ((Element.unpack len : Reader Ring128).run b).2) := by
  cases combine with
  | add =>
    show (StateT.bind (Element.unpack len).run
      (ExceptT.bindCont fun y => pure (x + y)) b : Id _) = _
    rw [StateT.bind]
    rcases (Element.unpack len : Reader Ring128).run b with ⟨_ | z, b'⟩ <;> rfl
  | replace =>
    show (Element.unpack len : Reader Ring128).run b = _
    rcases (Element.unpack len : Reader Ring128).run b with ⟨_ | z, b'⟩ <;> rfl

theorem absorb_congr (combine : Combine) (lengths : List (Option Nat)) {xs ys : List Ring128}
    (b : Buffer) (h : xs.map RingElement.low = ys.map RingElement.low) :
    (absorb combine lengths xs b).1 = (absorb combine lengths ys b).1 ∧
      (absorb combine lengths xs b).2.map RingElement.low =
        (absorb combine lengths ys b).2.map RingElement.low := by
  induction xs generalizing ys lengths b with
  | nil =>
    rw [List.map_eq_nil_iff.mp h.symm]
    exact ⟨rfl, rfl⟩
  | cons x xs ih =>
    obtain ⟨y, ys, rfl, hxy, hrest⟩ := List.map_eq_cons_iff.mp h.symm
    simp only [absorb, readOne_run]
    rcases (Element.unpack (lengths.headD none) : Reader Ring128).run b with ⟨_ | z, b'⟩
    · exact ⟨rfl, h⟩
    · obtain ⟨hr, hlow⟩ := ih lengths.tail b' hrest.symm
      refine ⟨hr, ?_⟩
      simp only [Except.map, List.map_cons, hlow]
      cases combine with
      | add => exact congrArg (· :: _) (Ring128.low_add_congr hxy.symm z)
      | replace => rfl

theorem absorbRange_congr (combine : Combine) (lengths : List (Option Nat)) (start stop : Nat)
    {xs ys : List Ring128} (message : Bytes)
    (h : xs.map RingElement.low = ys.map RingElement.low) :
    (absorbRange combine lengths start stop xs message).1 =
        (absorbRange combine lengths start stop ys message).1 ∧
      (absorbRange combine lengths start stop xs message).2.map RingElement.low =
        (absorbRange combine lengths start stop ys message).2.map RingElement.low := by
  obtain ⟨hr, hlow⟩ :=
    absorb_congr combine (lengths.drop start) (.ofBytes message) (slice_congr h start stop)
  have hlen := congrArg List.length hlow
  simp only [List.length_map] at hlen
  refine ⟨hr, ?_⟩
  simp only [absorbRange, List.map_append, List.map_take, List.map_drop, h, hlow, hlen]

end Message

namespace Summation

structure Veiled (count : Nat) (s s' : Summation Ring128) : Prop where
  packed : s.packed = s'.packed
  length : s.values.length = count
  lows : s.values.map RingElement.low = s'.values.map RingElement.low

variable {count : Nat} {s s' : Summation Ring128}

theorem Veiled.length' (h : Veiled count s s') : s'.values.length = count := by
  simpa [h.length] using (congrArg List.length h.lows).symm

end Summation

namespace Summation.Veiled

open Action (Keeps)

variable {count : Nat}

theorem compositional (count : Nat) :
    Compositional (visible count) fun _ => Keeps (Veiled count) where
  pure := .pure
  bind := .bind
  size heq hf := .read fun s s' h => ⟨heq s s' (h.length.trans h.length'.symm), hf s'⟩
  link := .link
  ofReadResult := .ofReadResult
  pack start stop s s' h := by
    have hmessage : Message.encodeRange (visible count) start stop s.values =
        Message.encodeRange (visible count) start stop s'.values :=
      h.length ▸ Message.encodeRange_congr h.lows start stop
    exact .done ⟨congrArg Except.ok hmessage, ⟨hmessage, h.length, h.lows⟩⟩
  absorb combine start stop message s s' h := by
    obtain ⟨hr, hlow⟩ :=
      Message.absorbRange_congr combine (visible count) start stop message h.lows
    have hlen :=
      Message.length_absorbRange combine (visible count) start stop s.values message
    rw [run_absorb, run_absorb, ← hr]
    exact Keeps.ofReadResult _ _ _ ⟨h.packed, hlen.trans h.length, hlow⟩

theorem exchange (a : Aggregator) (player : Player) :
    Keeps (Veiled count) (Aggregator.exchange a player (visible count)) := by
  refine Keeps.read fun s s' h => ⟨by rw [h.length, h.length'], ?_⟩
  have hlengths : Aggregator.usedLengths s'.values.length (visible count) = visible count :=
    if_pos (List.length_replicate.trans h.length'.symm)
  have hparts := compositional count
  simp only [hlengths]
  refine (Keeps.ofReadResult _).bind fun _ => ?_
  split
  · exact (hparts.reduceUp player _ _).bind fun _ => hparts.tellDown player _ _
  · exact (hparts.follow player .add _).bind fun _ => hparts.follow player .replace _
  · exact (hparts.follow player .add _).bind fun _ => hparts.follow player .replace _

end Summation.Veiled

/-- Openers with the same to do, whose batches may differ above their lower halves. Their
shares of authentications may differ too, as they are not sent. -/
structure Opener.Veiled (o o' : Opener Ring128) : Prop where
  aggregator : o.aggregator = o'.aggregator
  mode : o.mode = o'.mode
  phase : o.phase = o'.phase
  checkAfter : o.checkAfter = o'.checkAfter
  lengths : o.lengths = visible o.opened.length
  lengths' : o'.lengths = o.lengths
  opened : o.opened.map RingElement.low = o'.opened.map RingElement.low
  pendingMacs : o.pendingMacs.length = o'.pendingMacs.length
  waitingValues : o.waitingValues.length = o'.waitingValues.length
  waitingMacs : o.waitingMacs.length = o'.waitingMacs.length

namespace Opener

def settled (o : Opener Ring128) (r : Except Error Unit) (opened : List Ring128)
    (aggregator : Aggregator) : Opener Ring128 :=
  match r with
  | .ok () => { o with opened, aggregator }
  | .error _ => { o with aggregator }.clear .idle

variable {o o' : Opener Ring128} {player : Player}

theorem Veiled.sumShares (h : Veiled o o') :
    (sumShares player o).Rel (fun x y => x.1.1 = y.1.1 ∧ x.1.2.length = o.opened.length ∧
      x.1.2.map RingElement.low = y.1.2.map RingElement.low ∧ x.2 = y.2)
      (sumShares player o') := by
  simp only [Opener.sumShares, h.lengths', h.lengths, ← h.mode, ← h.aggregator]
  cases o.mode with
  | aggregated =>
    refine Protocol.Rel.bind (Summation.Veiled.exchange o.aggregator player
      ⟨o.aggregator.packed, o.opened⟩ ⟨o.aggregator.packed, o'.opened⟩ ⟨rfl, rfl, h.opened⟩) ?_
    rintro ⟨r, s⟩ ⟨_, s'⟩ ⟨rfl, hs⟩
    have hpacked : s.packed = s'.packed := hs.packed
    exact .done ⟨rfl, hs.length, hs.lows, by rw [hpacked]⟩
  | direct =>
    refine Protocol.Rel.bind ((Summation.Veiled.compositional _).direct player ⟨[], o.opened⟩ ⟨[], o'.opened⟩
      ⟨rfl, rfl, h.opened⟩) ?_
    rintro ⟨r, s⟩ ⟨_, s'⟩ ⟨rfl, hs⟩
    exact .done ⟨rfl, hs.length, hs.lows, rfl⟩

/-- An exchange comes to the same, but for the upper halves of the values. -/
theorem Veiled.exchangeShares (h : Veiled o o') :
    ((Opener.exchangeShares player).run.run o).Rel
      (fun x y => ∃ r opened opened' aggregator, opened.length = o.opened.length ∧
        opened.map RingElement.low = opened'.map RingElement.low ∧
        x = (r, o.settled r opened aggregator) ∧ y = (r, o'.settled r opened' aggregator))
      ((Opener.exchangeShares player).run.run o') := by
  rw [Opener.exchangeShares, Action.run_bind_done (Action.run_get o),
    Action.run_bind_done (Action.run_get o')]
  refine Protocol.Rel.bind (Protocol.Rel.bind h.sumShares (S := fun x y =>
    ∃ r opened opened' aggregator, opened.length = o.opened.length ∧
      opened.map RingElement.low = opened'.map RingElement.low ∧
      x = (.ok ((r, opened), aggregator), o) ∧ y = (.ok ((r, opened'), aggregator), o')) ?_) ?_
  · rintro ⟨⟨r, opened⟩, aggregator⟩ ⟨⟨_, opened'⟩, _⟩ ⟨rfl, hlen, hlow, rfl⟩
    exact .done ⟨r, opened, opened', aggregator, hlen, hlow, rfl, rfl⟩
  · rintro _ _ ⟨r, opened, opened', aggregator, hlen, hlow, rfl, rfl⟩
    cases r with
    | ok a => exact .done ⟨.ok a, opened, opened', aggregator, hlen, hlow, rfl, rfl⟩
    | error e => exact .done ⟨.error e, opened, opened', aggregator, hlen, hlow, rfl, rfl⟩

end Opener

namespace RingOpener

variable {o o' : RingOpener Ring128} {player : Player}

structure Veiled (o o' : RingOpener Ring128) : Prop where
  base : o.base.Veiled o'.base
  masks : o.masks = o'.masks

def settled (o : RingOpener Ring128) (r : Except Error Unit) (opened : List Ring128)
    (aggregator : Aggregator) : RingOpener Ring128 :=
  { o with
    base := o.base.settled r opened aggregator
    pendingShares := match r with
      | .ok () => o.pendingShares
      | .error _ => [] }

theorem Veiled.exchangeShares (h : Veiled o o') :
    ((RingOpener.exchangeShares player).run.run o).Rel
      (fun x y => ∃ r opened opened' aggregator, opened.length = o.base.opened.length ∧
        opened.map RingElement.low = opened'.map RingElement.low ∧
        x = (r, o.settled r opened aggregator) ∧ y = (r, o'.settled r opened' aggregator))
      ((RingOpener.exchangeShares player).run.run o') := by
  refine Protocol.Rel.bind (Protocol.Rel.bind h.base.exchangeShares (S := fun x y =>
    ∃ r opened opened' aggregator, opened.length = o.base.opened.length ∧
      opened.map RingElement.low = opened'.map RingElement.low ∧
      x = (r, { o with base := o.base.settled r opened aggregator }) ∧
      y = (r, { o' with base := o'.base.settled r opened' aggregator })) ?_) ?_
  · rintro _ _ ⟨r, opened, opened', aggregator, hlen, hlow, rfl, rfl⟩
    exact .done ⟨r, opened, opened', aggregator, hlen, hlow, rfl, rfl⟩
  · rintro _ _ ⟨r, opened, opened', aggregator, hlen, hlow, rfl, rfl⟩
    cases r with
    | ok a => exact .done ⟨.ok a, opened, opened', aggregator, hlen, hlow, rfl, rfl⟩
    | error e => exact .done ⟨.error e, opened, opened', aggregator, hlen, hlow, rfl, rfl⟩

structure Shows (o o' : RingOpener Ring128) : Prop where
  opened : o.base.opened = o'.base.opened
  waiting : o.waiting = o'.waiting
  masks : o.masks = o'.masks

theorem checkIfDue_run_of_lt {o : RingOpener Ring128} (h : o.waiting < o.base.checkAfter) :
    (checkIfDue player).run.run o = .done (.ok (), o) := by
  show (if o.base.checkAfter ≤ o.waiting then check player else pure ()).run.run o = _
  rw [if_neg (Nat.not_le.mpr h)]
  rfl

theorem waiting_record (o : RingOpener Ring128) :
    o.record.waiting = max (o.base.waitingMacs.length + o.base.pendingMacs.length)
      (o.base.waitingValues.length + o.base.opened.length) := by
  simp [record, waiting, Opener.waiting, Opener.record]

/-- Below the threshold of a check, an exchange does not tell the two apart either. -/
theorem Veiled.exchange (h : Veiled o o') (hdue : o.record.waiting < o.base.checkAfter) :
    ((RingOpener.exchange player).run.run o).Rel (fun x y => x.1 = y.1 ∧ x.2.Shows y.2)
      ((RingOpener.exchange player).run.run o') := by
  refine Protocol.Rel.bind h.exchangeShares ?_
  rintro _ _ ⟨r, opened, opened', aggregator, hlen, hlow, rfl, rfl⟩
  cases r with
  | error e =>
    refine .done ⟨rfl, rfl, ?_, h.masks⟩
    show max o.base.waitingMacs.length o.base.waitingValues.length =
      max o'.base.waitingMacs.length o'.base.waitingValues.length
    rw [h.base.waitingMacs, h.base.waitingValues]
  | ok a =>
    have hlen' : opened'.length = o'.base.opened.length := by
      have hopened := congrArg List.length h.base.opened
      have hlows := congrArg List.length hlow
      simp only [List.length_map] at hopened hlows
      omega
    have hrecord : (o.settled (.ok a) opened aggregator).record.waiting = o.record.waiting := by
      rw [waiting_record, waiting_record, ← hlen]
      rfl
    have hrecord' : (o'.settled (.ok a) opened' aggregator).record.waiting = o'.record.waiting := by
      rw [waiting_record, waiting_record, ← hlen']
      rfl
    have hsame : o.record.waiting = o'.record.waiting := by
      have hopened := congrArg List.length h.base.opened
      simp only [List.length_map] at hopened
      rw [waiting_record, waiting_record, h.base.waitingMacs, h.base.pendingMacs,
        h.base.waitingValues, hopened]
    have hlt : (o.settled (.ok a) opened aggregator).record.waiting < o.base.checkAfter :=
      hrecord.trans_lt hdue
    have hlt' : (o'.settled (.ok a) opened' aggregator).record.waiting < o'.base.checkAfter := by
      rw [hrecord', ← hsame, ← h.base.checkAfter]
      exact hdue
    show ((checkIfDue player).run.run (o.settled (.ok a) opened aggregator).record).Rel _
      ((checkIfDue player).run.run (o'.settled (.ok a) opened' aggregator).record)
    rw [checkIfDue_run_of_lt hlt, checkIfDue_run_of_lt hlt']
    exact .done ⟨rfl, hlow, by rw [hrecord, hrecord', hsame], h.masks⟩

def Collects (o : RingOpener Ring128) : Prop :=
  o.base.phase = .accumulating → o.base.lengths = visible o.base.opened.length

theorem Veiled.refl (h : Collects o) (hphase : o.base.phase = .accumulating) : Veiled o o :=
  ⟨⟨rfl, rfl, rfl, rfl, h hphase, rfl, rfl, rfl, rfl, rfl⟩, rfl⟩

theorem Veiled.prepare (h : Veiled o o') (hphase : o.base.phase = .accumulating)
    {s s' : Share Ring128} (hs : RingElement.low s.value = RingElement.low s'.value) :
    Veiled (o.prepare s) (o'.prepare s') := by
  rw [prepare_collects hphase, prepare_collects (h.base.phase ▸ hphase)]
  refine ⟨⟨h.base.aggregator, h.base.mode, h.base.phase, h.base.checkAfter, ?_, ?_, ?_, ?_,
    h.base.waitingValues, h.base.waitingMacs⟩, h.masks⟩
  · simp only [h.base.lengths, visible, List.length_append, List.length_singleton,
      List.replicate_succ']
  · simp only [h.base.lengths']
  · simp only [List.map_append, h.base.opened, List.map_singleton, hs]
  · simp only [List.length_append, h.base.pendingMacs, List.length_singleton]

theorem Veiled.prepareAll (h : Veiled o o') (hphase : o.base.phase = .accumulating)
    {shares shares' : List (Share Ring128)}
    (hs : shares.map (RingElement.low ·.value) = shares'.map (RingElement.low ·.value)) :
    Veiled (shares.foldl RingOpener.prepare o) (shares'.foldl RingOpener.prepare o') := by
  induction shares generalizing shares' o o' with
  | nil =>
    rw [List.map_eq_nil_iff.mp hs.symm]
    exact h
  | cons s rest ih =>
    obtain ⟨s', rest', rfl, hs', hrest⟩ := List.map_eq_cons_iff.mp hs.symm
    refine ih (h.prepare hphase hs'.symm) ?_ hrest.symm
    rw [prepare_collects hphase]
    exact hphase

theorem Collects.prepareAll (h : Collects o) {shares shares' : List (Share Ring128)}
    (hs : shares.map (RingElement.low ·.value) = shares'.map (RingElement.low ·.value))
    (hne : shares ≠ []) :
    Veiled (shares.foldl RingOpener.prepare o) (shares'.foldl RingOpener.prepare o) := by
  by_cases hphase : o.base.phase = .accumulating
  · exact (Veiled.refl h hphase).prepareAll hphase hs
  · obtain ⟨s, rest, rfl⟩ := List.exists_cons_of_ne_nil hne
    obtain ⟨s', rest', rfl, hs', hrest⟩ := List.map_eq_cons_iff.mp hs.symm
    have hstarted : o.start.base.phase = .accumulating := rfl
    simp only [List.foldl_cons, prepare_start hphase]
    exact Veiled.prepareAll (Veiled.refl (fun _ => rfl) hstarted) hstarted hs

theorem prepare_waits (o : RingOpener Ring128) (s : Share Ring128) :
    (o.prepare s).waiting = o.waiting ∧ (o.prepare s).masks = o.masks := by
  refine ⟨?_, prepare_masks o s⟩
  by_cases hphase : o.base.phase = .accumulating
  · rw [prepare_collects hphase]
    rfl
  · rw [prepare_start hphase, prepare_collects (o := o.start) rfl]
    rfl

theorem operateAll_prepares (player : Player) (shares : List (Share Ring128))
    (operations : List (RingOperation Ring128)) (o : RingOpener Ring128) :
    (operateAll player (shares.map .prepare ++ operations)).run o =
      ((operateAll player operations).run (shares.foldl RingOpener.prepare o)).bind
        fun x => .done
          (List.replicate shares.length (.ok [], o.waiting, o.masks) ++ x.1, x.2) := by
  induction shares generalizing o with
  | nil => exact (Protocol.bind_done _).symm
  | cons s rest ih =>
    have hcons : (operateAll player ((s :: rest).map .prepare ++ operations)).run o =
        ((operateAll player (rest.map .prepare ++ operations)).run (o.prepare s)).bind
          fun x => .done ((.ok [], (o.prepare s).waiting, (o.prepare s).masks) :: x.1, x.2) := rfl
    obtain ⟨hwaiting, hmasks⟩ := prepare_waits o s
    rw [hcons, ih, Protocol.bind_bind, hwaiting, hmasks]
    rfl

theorem operateAll_exchange (player : Player) (o : RingOpener Ring128) :
    (operateAll player [.exchange, .finish]).run o =
      ((RingOpener.exchange player).run.run o).bind fun x => .done
        ([(x.1.map fun _ => [], x.2.waiting, x.2.masks),
          (.ok x.2.base.opened, x.2.waiting, x.2.masks)], x.2.finish.2) := by
  show Protocol.bind (Protocol.bind ((RingOpener.exchange player).run.run o) _) _ = _
  rw [Protocol.bind_bind]
  refine congrArg _ (funext fun ⟨r, s⟩ => ?_)
  cases r <;> rfl

def openBatch (player : Player) (shares : List (Share Ring128)) (o : RingOpener Ring128) :
    Protocol (List (Note Ring128) × RingOpener Ring128) :=
  (operateAll player (shares.map .prepare ++ [.exchange, .finish])).run o

theorem openBatch_rel (player : Player) (h : Collects o) {shares shares' : List (Share Ring128)}
    (hs : shares.map (RingElement.low ·.value) = shares'.map (RingElement.low ·.value))
    (hdue : (shares.foldl RingOpener.prepare o).record.waiting <
      (shares.foldl RingOpener.prepare o).base.checkAfter) :
    (openBatch player shares o).Rel (fun x y => x.1 = y.1) (openBatch player shares' o) := by
  by_cases hne : shares = []
  · subst hne
    rw [List.map_eq_nil_iff.mp hs.symm]
    refine Protocol.Rel.refl ?_ _
    exact fun _ => rfl
  · have hlen : shares.length = shares'.length := by simpa using congrArg List.length hs
    have hveiled := h.prepareAll hs hne
    rw [openBatch, openBatch, operateAll_prepares, operateAll_prepares, hlen]
    refine Protocol.Rel.bind (R := fun x y => x.1 = y.1) ?_ fun x y hxy => by
      rw [hxy]
      exact .done rfl
    rw [operateAll_exchange, operateAll_exchange]
    refine Protocol.Rel.bind (hveiled.exchange hdue) ?_
    rintro ⟨r, u⟩ ⟨_, u'⟩ ⟨rfl, hu⟩
    obtain ⟨hopened, hwaiting, hmasks⟩ : u.Shows u' := hu
    refine .done ?_
    simp only [hopened, hwaiting, hmasks]

/-- Whatever network the players are on and however they are scheduled, their batches show no more
than the low halves of the shares: with other shares that have the same low halves they send the
same messages at the same times, byte by byte, and open the same values. -/
theorem openBatch_shown {o : Fin n → RingOpener Ring128} (ho : ∀ i, Collects (o i))
    {shares shares' : Fin n → List (Share Ring128)}
    (hs : ∀ i, (shares i).map (RingElement.low ·.value) = (shares' i).map (RingElement.low ·.value))
    (hdue : ∀ i, ((shares i).foldl prepare (o i)).record.waiting <
      ((shares i).foldl prepare (o i)).base.checkAfter)
    (capacity : Option Nat) (t : Fin n → Tape) (schedule : List (Fin n × Move)) :
    (World.start (fun i => openBatch (Player.numbered i) (shares i) (o i)) t .empty).shown capacity
        schedule =
      (World.start (fun i => openBatch (Player.numbered i) (shares' i) (o i)) t .empty).shown
        capacity schedule :=
  World.Rel.shown (World.Rel.start (fun i => openBatch_rel _ (ho i) (hs i) (hdue i)) t _) schedule

def veiledSeven (upper : Nat) (i : Fin 2) : Share Ring128 :=
  if i.val = 0 then ⟨Ring128.ofNat (2 ^ 64 * upper + 3), Ring128.ofNat upper⟩ else ⟨⟨4⟩, ⟨5⟩⟩

theorem openBatch_shown_seven :
    (veiledSeven 8 0).value ≠ (veiledSeven 9 0).value ∧
      ∀ (mode : ExchangeMode) (capacity : Option Nat) (t : Fin 2 → Tape)
          (schedule : List (Fin 2 × Move)),
        (World.start (fun i => openBatch (Player.numbered i) [veiledSeven 8 i]
          (new mode ⟨2⟩ .default)) t .empty).shown capacity schedule =
        (World.start (fun i => openBatch (Player.numbered i) [veiledSeven 9 i]
          (new mode ⟨2⟩ .default)) t .empty).shown capacity schedule := by
  have hlow : ∀ i : Fin 2, [veiledSeven 8 i].map (RingElement.low ·.value) =
      [veiledSeven 9 i].map (RingElement.low ·.value) := by decide +kernel
  have hdue : 1 < Config.default.checkAfter := by decide
  exact ⟨by decide +kernel, fun mode capacity t schedule =>
    openBatch_shown (o := fun _ => new mode ⟨2⟩ .default)
      (fun _ h => nomatch (h : Phase.idle = .accumulating)) hlow (fun _ => hdue)
      capacity t schedule⟩

end RingOpener

end AuthShares
