import AuthShares.Proofs.Opening.Challenges
import AuthShares.Proofs.Opening.LowHalves
import AuthShares.Proofs.Opening.Sessions

/-!
# Sessions over the ring

A session over the ring goes like one over the field, but the values are the low halves of
secrets, and every check that has something to check takes a mask. As long as there is one,
no operation of a player that follows the protocol fails.
-/

set_option autoImplicit false

namespace AuthShares

open scoped BigOperators

inductive RingOperation (T : Type) [Element T] where
  | start (count : Nat) (room : hasRoom count (Element.size T) = true)
  | prepare (share : Share T)
  | exchange
  | finish
  | openAll (shares : List (Share T))
  | addToCheck (share : Share T) (opened : T)
  | check

namespace RingOpener

variable {T : Type} [RingElement T] [Wire T] [DecidableEq T]

def operate (player : Player) : RingOperation T → Action (RingOpener T) (List T)
  | .start count _ => do
    modify fun o => (o.startFor? count).getD o
    return []
  | .prepare share => do
    modify (·.prepare share)
    return []
  | .exchange => do
    exchange player
    return []
  | .finish => takeOpened
  | .openAll shares => openAll player shares
  | .addToCheck share opened => do
    addToCheck player share opened
    return []
  | .check => do
    check player
    return []

abbrev Note (T : Type) := Except Error (List T) × Nat × Option (List (Share T))

def operateAll (player : Player) :
    List (RingOperation T) → StateT (RingOpener T) Protocol (List (Note T))
  | [] => return []
  | operation :: rest => do
    let r ← (operate player operation).run
    let o ← getThe (RingOpener T)
    let notes ← operateAll player rest
    return (r, o.waiting, o.masks) :: notes

end RingOpener

variable {n : Nat} {capacity : Option Nat} {key : Fin n → Ring128}

/-- An operation of all players on the same sharings. A value that was opened elsewhere has
to have the low half of the secret. -/
inductive RingTask (key : Fin n → Ring128) where
  | start (count : Nat) (room : hasRoom count (Element.size Ring128) = true)
  | prepare (s : Sharing Ring128 key)
  | exchange
  | finish
  | openAll (b : List (Sharing Ring128 key))
  | addToCheck (s : Sharing Ring128 key) (opened : Ring128)
    (low_eq : RingElement.low opened = RingElement.low s.secret)
  | check

def RingTask.operation (i : Fin n) : RingTask key → RingOperation Ring128
  | .start count room => .start count room
  | .prepare s => .prepare (s.share i)
  | .exchange => .exchange
  | .finish => .finish
  | .openAll b => .openAll (b.map (·.share i))
  | .addToCheck s opened _ => .addToCheck (s.share i) opened
  | .check => .check

structure RingSession (key : Fin n → Ring128) extends Session Ring128 key where
  masks : List (Sharing Ring128 key)

namespace RingSession

def new (masks : List (Sharing Ring128 key)) : RingSession key := ⟨.empty, masks⟩

def checked (u : RingSession key) : RingSession key :=
  if u.waiting = [] then u else { u with waiting := [], masks := u.masks.tail }

def due (checkAfter : Nat) (u : RingSession key) : RingSession key :=
  if checkAfter ≤ u.waiting.length then u.checked else u

def exchange (u : RingSession key) : RingSession key := { u with toSession := u.toSession.exchange }

def openAll (u : RingSession key) (b : List (Sharing Ring128 key)) : RingSession key :=
  { u with phase := .idle, batch := [], waiting := u.waiting ++ b }

def addToCheck (u : RingSession key) (s : Sharing Ring128 key) : RingSession key :=
  { u with waiting := u.waiting ++ [s] }

def HasMask (u : RingSession key) : Prop := u.waiting ≠ [] → u.masks ≠ []

def HasMaskIfDue (checkAfter : Nat) (u : RingSession key) : Prop :=
  checkAfter ≤ u.waiting.length → u.HasMask

/-- A batch is exchanged when it has been collected, and finished when it has been exchanged;
and there is a mask for every check of something. -/
def Allows (checkAfter : Nat) (u : RingSession key) : RingTask key → Prop
  | .exchange => u.phase = .accumulating ∧ u.exchange.HasMaskIfDue checkAfter
  | .finish => u.phase = .exchanged
  | .openAll b => (u.openAll b).HasMaskIfDue checkAfter
  | .addToCheck s _ _ => (u.addToCheck s).HasMaskIfDue checkAfter
  | .check => u.HasMask
  | _ => True

def step (checkAfter : Nat) (u : RingSession key) : RingTask key → RingSession key
  | .start _ _ => { u with phase := .accumulating, batch := [] }
  | .prepare s => { u with toSession := u.toSession.prepare s }
  | .exchange => u.exchange.due checkAfter
  | .finish => { u with toSession := u.toSession.finish }
  | .openAll b => (u.openAll b).due checkAfter
  | .addToCheck s _ _ => (u.addToCheck s).due checkAfter
  | .check => u.checked

def answer (u : RingSession key) : RingTask key → List Ring128
  | .finish => u.batch.map fun s => RingElement.low s.secret
  | .openAll b => b.map fun s => RingElement.low s.secret
  | _ => []

theorem due_keeps (checkAfter : Nat) (u : RingSession key) :
    (u.due checkAfter).phase = u.phase ∧ (u.due checkAfter).batch = u.batch ∧
      { u.due checkAfter with toSession := (u.due checkAfter).finish } =
        due checkAfter { u with toSession := u.toSession.finish } := by
  have hfinish : u.toSession.finish.waiting = u.waiting := rfl
  unfold due checked
  by_cases hdue : checkAfter ≤ u.waiting.length
  · by_cases hw : u.waiting = []
    · simp [hfinish, hw]
    · simp [hdue, hw, Session.finish]
  · simp [hfinish, hdue]

def AllowsAll (checkAfter : Nat) : RingSession key → List (RingTask key) → Prop
  | _, [] => True
  | u, task :: rest =>
    u.Allows checkAfter task ∧ (u.step checkAfter task).AllowsAll checkAfter rest

def notes (checkAfter : Nat) (i : Fin n) :
    RingSession key → List (RingTask key) → List (RingOpener.Note Ring128)
  | _, [] => []
  | u, task :: rest =>
    let u' := u.step checkAfter task
    (.ok (u.answer task), u'.waiting.length, some (u'.masks.map (·.share i))) ::
      u'.notes checkAfter i rest

end RingSession

structure RingReflects (a : Aggregator) (mode : ExchangeMode) (checkAfter : Nat) (i : Fin n)
    (u : RingSession key) (o : RingOpener Ring128) : Prop where
  keyShare : o.base.keyShare = key i
  aggregator : ∃ packed, o.base.aggregator = { a with packed }
  mode : o.base.mode = mode
  checkAfter : o.base.checkAfter = checkAfter
  phase : o.base.phase = u.phase
  waitingValues : o.base.waitingValues = u.waiting.map fun s => RingElement.low s.secret
  waitingMacs : o.base.waitingMacs = u.waiting.map fun s => (s.share i).mac
  waitingShares : o.waitingShares = u.waiting.map fun s => (s.share i).value
  masks : o.masks = some (u.masks.map (·.share i))
  collected : u.phase = .accumulating → o.base.opened = u.batch.map (fun s => (s.share i).value) ∧
    o.base.lengths = u.batch.map (fun _ => some (RingElement.visibleBytes Ring128)) ∧
    o.base.pendingMacs = u.batch.map (fun s => (s.share i).mac) ∧
    o.pendingShares = u.batch.map fun s => (s.share i).value
  shown : u.phase = .exchanged → o.base.opened = u.batch.map fun s => RingElement.low s.secret

namespace RingReflects

variable {a : Aggregator} {mode : ExchangeMode} {checkAfter : Nat} {i : Fin n}
  {u : RingSession key} {o : RingOpener Ring128}

theorem new (mode : ExchangeMode) (c : Config) (i : Fin n) (masks : List (Sharing Ring128 key)) :
    RingReflects (.ofConfig c) mode c.checkAfter i (.new masks)
      ((RingOpener.new mode (key i) c).setMasks (masks.map (·.share i))) where
  keyShare := rfl
  aggregator := ⟨[], rfl⟩
  mode := rfl
  checkAfter := rfl
  phase := rfl
  waitingValues := rfl
  waitingMacs := rfl
  waitingShares := rfl
  masks := rfl
  collected h := by cases h
  shown h := by cases h

theorem waiting (h : RingReflects a mode checkAfter i u o) : o.waiting = u.waiting.length := by
  simp [RingOpener.waiting, Opener.waiting, h.waitingValues, h.waitingMacs]

theorem start (h : RingReflects a mode checkAfter i u o) :
    RingReflects a mode checkAfter i { u with phase := .accumulating, batch := [] } o.start where
  keyShare := h.keyShare
  aggregator := h.aggregator
  mode := h.mode
  checkAfter := h.checkAfter
  phase := rfl
  waitingValues := h.waitingValues
  waitingMacs := h.waitingMacs
  waitingShares := h.waitingShares
  masks := h.masks
  collected _ := ⟨rfl, rfl, rfl, rfl⟩
  shown h := by cases h

theorem prepare (h : RingReflects a mode checkAfter i u o) (s : Sharing Ring128 key) :
    RingReflects a mode checkAfter i { u with toSession := u.toSession.prepare s }
      (o.prepare (s.share i)) := by
  by_cases hp : u.phase = .accumulating
  · obtain ⟨hopened, hlengths, hmacs, hshares⟩ := h.collected hp
    have ho : o.base.phase = .accumulating := h.phase.trans hp
    rw [Session.prepare, if_pos hp, RingOpener.prepare_collects ho]
    exact ⟨h.keyShare, h.aggregator, h.mode, h.checkAfter, ho, h.waitingValues, h.waitingMacs,
      h.waitingShares, h.masks, fun _ => ⟨by simp [hopened], by simp [hlengths], by simp [hmacs],
        by simp [hshares]⟩, fun hs => by cases hs⟩
  · have ho : ¬ o.base.phase = .accumulating := fun h' => hp (h.phase.symm.trans h')
    have hstart : o.start.base.phase = .accumulating := rfl
    rw [Session.prepare, if_neg hp, RingOpener.prepare_start ho,
      RingOpener.prepare_collects hstart]
    exact ⟨h.keyShare, h.aggregator, h.mode, h.checkAfter, rfl, h.waitingValues, h.waitingMacs,
      h.waitingShares, h.masks, fun _ => ⟨rfl, rfl, rfl, rfl⟩, fun hs => by cases hs⟩

theorem prepareAll (h : RingReflects a mode checkAfter i u o) (hp : u.phase = .accumulating)
    (b : List (Sharing Ring128 key)) :
    RingReflects a mode checkAfter i { u with batch := u.batch ++ b }
      ((b.map (·.share i)).foldl RingOpener.prepare o) := by
  induction b generalizing u o with
  | nil => simpa using h
  | cons s b ih =>
    have hs := ih (h.prepare s) rfl
    simpa [Session.prepare, hp] using hs

theorem record (h : RingReflects a mode checkAfter i u o) (hp : u.phase = .accumulating)
    {v : List Ring128} (hv : v.map RingElement.low = u.batch.map fun s => RingElement.low s.secret)
    {aggregator : Aggregator} (ha : ∃ packed, aggregator = { a with packed }) :
    RingReflects a mode checkAfter i u.exchange (RingOpener.record { o with
      base := { o.base with opened := v, aggregator := aggregator } }) where
  keyShare := h.keyShare
  aggregator := ha
  mode := h.mode
  checkAfter := h.checkAfter
  phase := rfl
  waitingValues := by
    simp [RingOpener.record, Opener.record, RingSession.exchange, Session.exchange,
      h.waitingValues, hv]
  waitingMacs := by
    simp [RingOpener.record, Opener.record, RingSession.exchange, Session.exchange,
      h.waitingMacs, (h.collected hp).2.2.1]
  waitingShares := by
    simp [RingOpener.record, Opener.record, RingSession.exchange, Session.exchange,
      h.waitingShares, (h.collected hp).2.2.2]
  masks := h.masks
  collected hs := by cases hs
  shown _ := hv

theorem finish (h : RingReflects a mode checkAfter i u o) :
    RingReflects a mode checkAfter i { u with toSession := u.toSession.finish } o.finish.2 where
  keyShare := h.keyShare
  aggregator := h.aggregator
  mode := h.mode
  checkAfter := h.checkAfter
  phase := rfl
  waitingValues := h.waitingValues
  waitingMacs := h.waitingMacs
  waitingShares := h.waitingShares
  masks := h.masks
  collected hs := by cases hs
  shown hs := by cases hs

theorem addWaiting (h : RingReflects a mode checkAfter i u o) (s : Sharing Ring128 key)
    {opened : Ring128} (hlow : RingElement.low opened = RingElement.low s.secret) :
    RingReflects a mode checkAfter i (u.addToCheck s) { o with
      base := o.base.addWaiting (s.share i).mac (RingElement.low opened)
      waitingShares := o.waitingShares ++ [(s.share i).value] } :=
  ⟨h.keyShare, h.aggregator, h.mode, h.checkAfter, h.phase,
    by simp [Opener.addWaiting, RingSession.addToCheck, h.waitingValues, hlow],
    by simp [Opener.addWaiting, RingSession.addToCheck, h.waitingMacs],
    by simp [RingSession.addToCheck, h.waitingShares], h.masks, h.collected, h.shown⟩

theorem spent (h : RingReflects a mode checkAfter i u o) {aggregator : Aggregator}
    (ha : ∃ packed, aggregator = { a with packed }) :
    RingReflects a mode checkAfter i { u with waiting := [], masks := u.masks.tail }
      (o.spent (u.masks.tail.map (·.share i)) aggregator) :=
  ⟨h.keyShare, ha, h.mode, h.checkAfter, h.phase, rfl, rfl, rfl, rfl, h.collected, h.shown⟩

end RingReflects

section Accord

variable {a : Aggregator} {mode : ExchangeMode} {checkAfter : Nat} {u : RingSession key}
  {o : Fin n → RingOpener Ring128}

theorem RingReflects.awaits (h : ∀ i, RingReflects a mode checkAfter i u (o i))
    {mask : Sharing Ring128 key} {masks : List (Sharing Ring128 key)}
    (hmasks : u.masks = mask :: masks) :
    RingOpener.Awaits o u.waiting.get (fun k => RingElement.low (u.waiting.get k).secret) mask a where
  keyShare i := (h i).keyShare
  values i := (h i).waitingValues.trans (List.ofFn_getElem_eq_map _ _).symm
  macs i := (h i).waitingMacs.trans (List.ofFn_getElem_eq_map _ _).symm
  shares i := (h i).waitingShares.trans (List.ofFn_getElem_eq_map _ _).symm
  masks i := ⟨masks.map (·.share i), by rw [(h i).masks, hmasks, List.map_cons]⟩
  aggregator i := (h i).aggregator

theorem RingReflects.check (hcap : capacity ≠ some 0) (hpos : 0 < n) (hn : 2 * n < wordRange)
    (h : ∀ i, RingReflects a mode checkAfter i u (o i)) (hmask : u.HasMask) (t : Fin n → Tape) :
    ∃ o' t', Accord capacity (fun i => RingOpener.check (Player.numbered i)) o t (fun _ => ())
      o' t' ∧ ∀ i, RingReflects a mode checkAfter i u.checked (o' i) := by
  by_cases hw : u.waiting = []
  · have hzero : ∀ i, (o i).waiting = 0 := fun i => by rw [(h i).waiting, hw, List.length_nil]
    refine ⟨o, t, Accord.bind_done (fun i => Action.run_get (o i)) ?_, ?_⟩
    · simp only [hzero, ↓reduceIte]
      exact Accord.pure _ _ t
    · simpa only [RingSession.checked, hw, ↓reduceIte] using h
  · obtain ⟨mask, masks, hmasks⟩ := List.exists_cons_of_ne_nil (hmask hw)
    have hrest : ∀ i, (o i).masks = some (mask.share i :: u.masks.tail.map (·.share i)) := by
      intro i
      rw [(h i).masks, hmasks]
      rfl
    obtain ⟨packed, t', htog⟩ := RingOpener.check_spends hcap hpos hn (fun _ => rfl)
      (List.length_pos_of_ne_nil hw) (fun _ => rfl) (RingReflects.awaits h hmasks) hrest t
    simp only [RingOpener.deviation_low, ↓reduceIte] at htog
    refine ⟨_, t', htog, fun i => ?_⟩
    rw [RingSession.checked, if_neg hw]
    exact (h i).spent ⟨packed i, rfl⟩

theorem RingReflects.checkIfDue (hcap : capacity ≠ some 0) (hpos : 0 < n)
    (hn : 2 * n < wordRange) (h : ∀ i, RingReflects a mode checkAfter i u (o i))
    (hmask : u.HasMaskIfDue checkAfter) (t : Fin n → Tape) :
    ∃ o' t', Accord capacity (fun i => RingOpener.checkIfDue (Player.numbered i)) o t
      (fun _ => ()) o' t' ∧ ∀ i, RingReflects a mode checkAfter i (u.due checkAfter) (o' i) := by
  by_cases hdue : checkAfter ≤ u.waiting.length
  · obtain ⟨o', t', hacc, h'⟩ := RingReflects.check hcap hpos hn h (hmask hdue) t
    refine ⟨o', t', Accord.bind_done (fun i => Action.run_get (o i)) ?_, ?_⟩
    · simp only [(h _).checkAfter, (h _).waiting, hdue, ↓reduceIte]
      exact hacc
    · simpa only [RingSession.due, hdue, ↓reduceIte] using h'
  · refine ⟨o, t, Accord.bind_done (fun i => Action.run_get (o i)) ?_, ?_⟩
    · simp only [(h _).checkAfter, (h _).waiting, hdue, ↓reduceIte]
      exact Accord.pure _ _ t
    · simpa only [RingSession.due, hdue, ↓reduceIte] using h

theorem RingReflects.exchange (hcap : capacity ≠ some 0) (hpos : 0 < n) (hn : 2 * n < wordRange)
    (h : ∀ i, RingReflects a mode checkAfter i u (o i)) (hp : u.phase = .accumulating)
    (hmask : u.exchange.HasMaskIfDue checkAfter) (t : Fin n → Tape) :
    ∃ o' t', Accord capacity (fun i => RingOpener.exchange (Player.numbered i)) o t (fun _ => ())
      o' t' ∧ ∀ i, RingReflects a mode checkAfter i (u.exchange.due checkAfter) (o' i) := by
  obtain ⟨v, aggregator, hacc, hv, ha⟩ := RingOpener.exchangeShares_accord hcap hpos hn
    (fun i => (h i).mode) (fun i => (h i).aggregator) u.batch
    (fun i => ((h i).collected hp).1) (fun i => ((h i).collected hp).2.1) t
  obtain ⟨o', t', hdue, h'⟩ := RingReflects.checkIfDue hcap hpos hn
    (fun i => (h i).record hp (hv i) (ha i)) hmask t
  exact ⟨o', t', hacc.bind (Accord.bind_done (fun _ => rfl) hdue), h'⟩

theorem RingReflects.openAll (hcap : capacity ≠ some 0) (hpos : 0 < n) (hn : 2 * n < wordRange)
    (h : ∀ i, RingReflects a mode checkAfter i u (o i)) (b : List (Sharing Ring128 key))
    (hmask : (u.openAll b).HasMaskIfDue checkAfter) (t : Fin n → Tape) :
    ∃ o' t', Accord capacity
        (fun i => RingOpener.openAll (Player.numbered i) (b.map (·.share i))) o t
        (fun _ => b.map fun s => RingElement.low s.secret) o' t' ∧
      ∀ i, RingReflects a mode checkAfter i ((u.openAll b).due checkAfter) (o' i) := by
  have hbatch : ∀ i, RingReflects a mode checkAfter i
      { u with phase := .accumulating, batch := b }
      ((b.map (·.share i)).foldl RingOpener.prepare (o i).start) :=
    fun i => (h i).start.prepareAll rfl b
  obtain ⟨o', t', hacc, h'⟩ := RingReflects.exchange hcap hpos hn hbatch rfl hmask t
  obtain ⟨hphase, hsame, hfinish⟩ := RingSession.due_keeps checkAfter
    (RingSession.exchange { u with phase := .accumulating, batch := b })
  have hopened : ∀ i, (o' i).base.opened = b.map fun s => RingElement.low s.secret := fun i => by
    rw [(h' i).shown hphase, hsame]
    rfl
  refine ⟨fun i => (o' i).finish.2, t', Accord.bind_done (fun _ => rfl) (hacc.bind ?_), ?_⟩
  · exact Accord.of_done (fun i => by rw [← hopened i]; rfl) t'
  · intro i
    have hfinished := (h' i).finish
    rw [hfinish] at hfinished
    exact hfinished

/-- Every task that is allowed succeeds, with the answer of the session. -/
theorem RingReflects.operate (hcap : capacity ≠ some 0) (hpos : 0 < n) (hn : 2 * n < wordRange)
    (h : ∀ i, RingReflects a mode checkAfter i u (o i)) (task : RingTask key)
    (hallows : u.Allows checkAfter task) (t : Fin n → Tape) :
    ∃ o' t', Accord capacity
        (fun i => RingOpener.operate (Player.numbered i) (task.operation i)) o t
        (fun _ => u.answer task) o' t' ∧
      ∀ i, RingReflects a mode checkAfter i (u.step checkAfter task) (o' i) := by
  cases task with
  | start count room =>
    refine ⟨fun i => (o i).start, t, Accord.bind_done (a := fun _ => ()) (fun i => ?_)
      (Accord.pure _ _ t), fun i => (h i).start⟩
    rw [← (o i).startFor_eq room]
    rfl
  | prepare s =>
    exact ⟨_, t, Accord.bind_done (fun _ => rfl) (Accord.pure _ _ t), fun i => (h i).prepare s⟩
  | exchange =>
    obtain ⟨o', t', hacc, h'⟩ := RingReflects.exchange hcap hpos hn h hallows.1 hallows.2 t
    exact ⟨o', t', hacc.bind (Accord.pure _ _ t'), h'⟩
  | finish =>
    refine ⟨fun i => (o i).finish.2, t, Accord.of_done (fun i => ?_) t, fun i => (h i).finish⟩
    rw [RingSession.answer, ← (h i).shown hallows]
    rfl
  | openAll b => exact RingReflects.openAll hcap hpos hn h b hallows t
  | addToCheck s opened hlow =>
    obtain ⟨o', t', hacc, h'⟩ := RingReflects.checkIfDue hcap hpos hn
      (fun i => (h i).addWaiting s hlow) hallows t
    have hadd : Accord capacity
        (fun i => RingOpener.addToCheck (Player.numbered i) (s.share i) opened) o t (fun _ => ())
        o' t' := Accord.bind_done (fun _ => rfl) hacc
    exact ⟨o', t', hadd.bind (Accord.pure _ _ t'), h'⟩
  | check =>
    obtain ⟨o', t', hacc, h'⟩ := RingReflects.check hcap hpos hn h hallows t
    exact ⟨o', t', hacc.bind (Accord.pure _ _ t'), h'⟩

theorem RingReflects.operateAll (hcap : capacity ≠ some 0) (hpos : 0 < n)
    (hn : 2 * n < wordRange) (h : ∀ i, RingReflects a mode checkAfter i u (o i))
    (tasks : List (RingTask key)) (hallows : u.AllowsAll checkAfter tasks) (t : Fin n → Tape) :
    ∃ (o' : Fin n → RingOpener Ring128) (t' : Fin n → Tape), World.Together capacity
      (fun i => (RingOpener.operateAll (Player.numbered i) (tasks.map (·.operation i))).run (o i)) t
      (fun i => (u.notes checkAfter i tasks, o' i)) t' := by
  induction tasks generalizing u o t with
  | nil => exact ⟨o, t, World.Together.pure _ t⟩
  | cons task tasks ih =>
    obtain ⟨hfirst, hrest⟩ := hallows
    obtain ⟨o', t', hacc, h'⟩ := RingReflects.operate hcap hpos hn h task hfirst t
    obtain ⟨o'', t'', htog⟩ := ih h' hrest t'
    refine ⟨o'', t'', World.Together.bind hacc (World.Together.bind
      (World.Together.pure (fun i => (o' i, o' i)) t') (World.Together.bind htog ?_))⟩
    simp only [(h' _).waiting, (h' _).masks]
    exact World.Together.pure _ t''

end Accord

/-- However the players' messages are interleaved and whatever they draw, all operations of
all players succeed, with the answers of the session, and every check of something takes one
mask. There are as many players as signed words can number. -/
theorem operateAll_endsIn (hcap : capacity ≠ some 0) (hpos : 0 < n) (hn : 2 * n < wordRange)
    (c : Config) (mode : ExchangeMode) (key : Fin n → Ring128)
    (masks : List (Sharing Ring128 key)) (tasks : List (RingTask key))
    (hallows : (RingSession.new masks).AllowsAll c.checkAfter tasks) (t : Fin n → Tape) :
    ∃ (o : Fin n → RingOpener Ring128) (t' : Fin n → Tape), World.EndsIn capacity
      (World.start (fun i =>
        (RingOpener.operateAll (Player.numbered i) (tasks.map (·.operation i))).run
          ((RingOpener.new mode (key i) c).setMasks (masks.map (·.share i)))) t .empty)
      (World.start (fun i => .done ((RingSession.new masks).notes c.checkAfter i tasks, o i)) t'
        .empty) := by
  obtain ⟨o, t', h⟩ := RingReflects.operateAll hcap hpos hn
    (fun i => RingReflects.new mode c i masks) tasks hallows t
  exact ⟨o, t', h.endsIn⟩

def RingOpener.carriedSeven : Sharing Ring128 (fun i : Fin 2 => ⟨if i.val = 0 then 2 else 3⟩) where
  secret := .ofNat (2 ^ 64 + 7)
  share i := ⟨.ofNat (if i.val = 0 then 2 ^ 64 - 1 else 8),
    .ofNat (if i.val = 0 then 9 else 5 * 2 ^ 64 + 26)⟩
  value_canonical := by decide
  mac_canonical := by decide
  total_value := by decide
  total_mac := by decide

open RingOpener in
theorem operateAll_endsIn_two :
    ∃ (o : Fin 2 → RingOpener Ring128) (t' : Fin 2 → Tape), World.EndsIn none
      (World.start (fun i => (operateAll (Player.numbered i)
        [.prepare (carriedSeven.share i), .exchange, .finish, .openAll [carriedSeven.share i],
          .addToCheck (carriedSeven.share i) ⟨7⟩, .check]).run
        ((new .aggregated ⟨if i.val = 0 then 2 else 3⟩ .default).setMasks [eleven.share i]))
        (fun _ _ => zeroBytes) .empty)
      (World.start (fun i => .done ([(.ok [], 0, some [eleven.share i]),
        (.ok [], 1, some [eleven.share i]), (.ok [⟨7⟩], 1, some [eleven.share i]),
        (.ok [⟨7⟩], 2, some [eleven.share i]), (.ok [], 3, some [eleven.share i]),
        (.ok [], 0, some [])], o i)) t' .empty) :=
  operateAll_endsIn (by simp) (by decide) (by decide) .default .aggregated _ [eleven]
    [.prepare carriedSeven, .exchange, .finish, .openAll [carriedSeven],
      .addToCheck carriedSeven ⟨7⟩ (by decide), .check]
    ⟨trivial, ⟨rfl, fun _ _ => List.cons_ne_nil _ _⟩, rfl, fun _ _ => List.cons_ne_nil _ _,
      fun _ _ => List.cons_ne_nil _ _, fun _ => List.cons_ne_nil _ _, trivial⟩
    (fun _ _ => zeroBytes)

end AuthShares
