import AuthShares.Proofs.Element.Mersenne61
import AuthShares.Proofs.Opening.Batches

/-!
# Sessions of players that follow the protocol

What all players do together with valid sharings is a session: a phase, a batch of
sharings, and the sharings whose values wait for a check. Every opener reflects it, each
with its own shares. So no operation fails, opened values are the secrets of the batch in
their order, and everywhere as many values wait.
-/

set_option autoImplicit false

namespace AuthShares

open scoped BigOperators

variable {n : Nat} {capacity : Option Nat} {T : Type} [MacElement T] {key : Fin n → T}

inductive Task (T : Type) [MacElement T] {n : Nat} (key : Fin n → T) where
  | start (count : Nat) (room : hasRoom count (Element.size T) = true)
  | prepare (s : Sharing T key)
  | exchange
  | finish
  | openAll (b : List (Sharing T key))
  | openOne (s : Sharing T key)
  | addToCheck (s : Sharing T key)
  | check
  | checkIfDue

def Task.operation (i : Fin n) : Task T key → Operation T
  | .start count room => .start count room
  | .prepare s => .prepare (s.share i) none
  | .exchange => .exchange
  | .finish => .finish
  | .openAll b => .openAll (b.map (·.share i))
  | .openOne s => .openOne (s.share i)
  | .addToCheck s => .addToCheck (s.share i) s.secret
  | .check => .check
  | .checkIfDue => .checkIfDue

structure Session (T : Type) [MacElement T] {n : Nat} (key : Fin n → T) where
  phase : Phase
  batch : List (Sharing T key)
  waiting : List (Sharing T key)

namespace Session

def empty : Session T key := ⟨.idle, [], []⟩

/-- A batch is exchanged when it has been collected, and finished when it has been exchanged. -/
def Allows (u : Session T key) : Task T key → Prop
  | .exchange => u.phase = .accumulating
  | .finish => u.phase = .exchanged
  | _ => True

def due (checkAfter : Nat) (u : Session T key) : Session T key :=
  if checkAfter ≤ u.waiting.length then { u with waiting := [] } else u

def prepare (u : Session T key) (s : Sharing T key) : Session T key :=
  { u with
    phase := .accumulating
    batch := if u.phase = .accumulating then u.batch ++ [s] else [s] }

def exchange (u : Session T key) : Session T key :=
  { u with phase := .exchanged, waiting := u.waiting ++ u.batch }

def finish (u : Session T key) : Session T key := { u with phase := .idle, batch := [] }

def step (checkAfter : Nat) (u : Session T key) : Task T key → Session T key
  | .start _ _ => { u with phase := .accumulating, batch := [] }
  | .prepare s => u.prepare s
  | .exchange => u.exchange.due checkAfter
  | .finish => u.finish
  | .openAll b => { u with phase := .idle, batch := [], waiting := u.waiting ++ b }.due checkAfter
  | .openOne s => { u with phase := .idle, batch := [], waiting := u.waiting ++ [s] }.due checkAfter
  | .addToCheck s => { u with waiting := u.waiting ++ [s] }.due checkAfter
  | .check => { u with waiting := [] }
  | .checkIfDue => u.due checkAfter

def answer (u : Session T key) : Task T key → List T
  | .finish => u.batch.map (·.secret)
  | .openAll b => b.map (·.secret)
  | .openOne s => [s.secret]
  | _ => []

def AllowsAll (checkAfter : Nat) : Session T key → List (Task T key) → Prop
  | _, [] => True
  | u, task :: rest => u.Allows task ∧ (u.step checkAfter task).AllowsAll checkAfter rest

def answers (checkAfter : Nat) :
    Session T key → List (Task T key) → List (Except Error (List T) × Nat)
  | _, [] => []
  | u, task :: rest =>
    let u' := u.step checkAfter task
    (.ok (u.answer task), u'.waiting.length) :: u'.answers checkAfter rest

end Session

structure Reflects (a : Aggregator) (mode : ExchangeMode) (checkAfter : Nat) (i : Fin n)
    (u : Session T key) (o : Opener T) : Prop where
  keyShare : o.keyShare = key i
  aggregator : ∃ packed, o.aggregator = { a with packed }
  mode : o.mode = mode
  checkAfter : o.checkAfter = checkAfter
  phase : o.phase = u.phase
  waitingValues : o.waitingValues = u.waiting.map (·.secret)
  waitingMacs : o.waitingMacs = u.waiting.map fun s => (s.share i).mac
  collected : u.phase = .accumulating → o.opened = u.batch.map (fun s => (s.share i).value) ∧
    o.lengths = u.batch.map (fun _ => none) ∧ o.pendingMacs = u.batch.map fun s => (s.share i).mac
  shown : u.phase = .exchanged → o.opened = u.batch.map (·.secret)

namespace Reflects

variable {a : Aggregator} {mode : ExchangeMode} {checkAfter : Nat} {i : Fin n}
  {u : Session T key} {o : Opener T}

theorem new (mode : ExchangeMode) (c : Config) (i : Fin n) :
    Reflects (.ofConfig c) mode c.checkAfter i (.empty : Session T key) (.new mode (key i) c) where
  keyShare := rfl
  aggregator := ⟨[], rfl⟩
  mode := rfl
  checkAfter := rfl
  phase := rfl
  waitingValues := rfl
  waitingMacs := rfl
  collected h := by cases h
  shown h := by cases h

theorem waiting (h : Reflects a mode checkAfter i u o) : o.waiting = u.waiting.length := by
  simp [Opener.waiting, h.waitingValues, h.waitingMacs]

theorem start (h : Reflects a mode checkAfter i u o) :
    Reflects a mode checkAfter i { u with phase := .accumulating, batch := [] } o.start where
  keyShare := h.keyShare
  aggregator := h.aggregator
  mode := h.mode
  checkAfter := h.checkAfter
  phase := rfl
  waitingValues := h.waitingValues
  waitingMacs := h.waitingMacs
  collected _ := ⟨rfl, rfl, rfl⟩
  shown h := by cases h

theorem prepare (h : Reflects a mode checkAfter i u o) (s : Sharing T key) :
    Reflects a mode checkAfter i (u.prepare s) (o.prepare (s.share i) none) := by
  by_cases hp : u.phase = .accumulating
  · obtain ⟨hopened, hlengths, hmacs⟩ := h.collected hp
    have ho : o.phase = .accumulating := h.phase.trans hp
    rw [Session.prepare, if_pos hp, Opener.prepare_eq_append ho]
    exact ⟨h.keyShare, h.aggregator, h.mode, h.checkAfter, ho, h.waitingValues, h.waitingMacs,
      fun _ => ⟨by simp [hopened], by simp [hlengths], by simp [hmacs]⟩, fun hs => by cases hs⟩
  · have ho : ¬ o.phase = .accumulating := fun h' => hp (h.phase.symm.trans h')
    rw [Session.prepare, if_neg hp, Opener.prepare_eq_single ho]
    exact ⟨h.keyShare, h.aggregator, h.mode, h.checkAfter, rfl, h.waitingValues, h.waitingMacs,
      fun _ => ⟨rfl, rfl, rfl⟩, fun hs => by cases hs⟩

theorem prepareAll (h : Reflects a mode checkAfter i u o) (hp : u.phase = .accumulating)
    (b : List (Sharing T key)) :
    Reflects a mode checkAfter i { u with batch := u.batch ++ b }
      ((b.map (·.share i)).foldl (fun o share => o.prepare share none) o) := by
  induction b generalizing u o with
  | nil => simpa using h
  | cons s b ih =>
    have hs := ih (h.prepare s) rfl
    simpa [Session.prepare, hp] using hs

theorem record (h : Reflects a mode checkAfter i u o) (hp : u.phase = .accumulating)
    {aggregator : Aggregator} (ha : ∃ packed, aggregator = { a with packed }) :
    Reflects a mode checkAfter i u.exchange
      (Opener.record { o with opened := u.batch.map (·.secret), aggregator := aggregator }) where
  keyShare := h.keyShare
  aggregator := ha
  mode := h.mode
  checkAfter := h.checkAfter
  phase := rfl
  waitingValues := by simp [Opener.record, Session.exchange, h.waitingValues]
  waitingMacs := by
    simp [Opener.record, Session.exchange, h.waitingMacs, (h.collected hp).2.2]
  collected hs := by cases hs
  shown _ := rfl

theorem finish (h : Reflects a mode checkAfter i u o) :
    Reflects a mode checkAfter i u.finish o.finish.2 where
  keyShare := h.keyShare
  aggregator := h.aggregator
  mode := h.mode
  checkAfter := h.checkAfter
  phase := rfl
  waitingValues := h.waitingValues
  waitingMacs := h.waitingMacs
  collected hs := by cases hs
  shown hs := by cases hs

theorem addWaiting (h : Reflects a mode checkAfter i u o) (s : Sharing T key) :
    Reflects a mode checkAfter i { u with waiting := u.waiting ++ [s] }
      (o.addWaiting (s.share i).mac s.secret) :=
  ⟨h.keyShare, h.aggregator, h.mode, h.checkAfter, h.phase,
    by simp [Opener.addWaiting, h.waitingValues], by simp [Opener.addWaiting, h.waitingMacs],
    h.collected, h.shown⟩

theorem clearWaiting (h : Reflects a mode checkAfter i u o) :
    Reflects a mode checkAfter i { u with waiting := [] } o.clearWaiting :=
  ⟨h.keyShare, h.aggregator, h.mode, h.checkAfter, h.phase, rfl, rfl, h.collected, h.shown⟩

end Reflects

section Accord

variable [Modular T] [Wire T] [LawfulWire T] {a : Aggregator} {mode : ExchangeMode}
  {checkAfter : Nat} {u : Session T key} {o : Fin n → Opener T}

theorem check_reflects (hcap : capacity ≠ some 0) (hn : n < wordRange)
    (hkey : ∀ i, Element.isCanonical (key i)) (h : ∀ i, Reflects a mode checkAfter i u (o i))
    (t : Fin n → Tape) :
    ∃ o' t', Accord capacity (fun i => Opener.check (Player.numbered i)) o t (fun _ => ()) o' t' ∧
      ∀ i, Reflects a mode checkAfter i { u with waiting := [] } (o' i) := by
  have hw : ∀ i, (o i).waitingValues.zip (o i).waitingMacs =
      u.waiting.map fun s => (s.secret, (s.share i).mac) := fun i => by
    rw [(h i).waitingValues, (h i).waitingMacs, List.zip_map']
  obtain ⟨t', hacc⟩ := Opener.check_accord hcap hn hkey (fun i => (h i).keyShare) u.waiting hw
    (fun i => (h i).waiting) t
  exact ⟨_, t', hacc, fun i => (h i).clearWaiting⟩

theorem checkIfDue_reflects (hcap : capacity ≠ some 0) (hn : n < wordRange)
    (hkey : ∀ i, Element.isCanonical (key i)) (h : ∀ i, Reflects a mode checkAfter i u (o i))
    (t : Fin n → Tape) :
    ∃ o' t', Accord capacity (fun i => Opener.checkIfDue (Player.numbered i)) o t (fun _ => ())
        o' t' ∧ ∀ i, Reflects a mode checkAfter i (u.due checkAfter) (o' i) := by
  by_cases hdue : checkAfter ≤ u.waiting.length
  · obtain ⟨o', t', hacc, h'⟩ := check_reflects hcap hn hkey h t
    refine ⟨o', t', Accord.bind_done (fun i => Action.run_get (o i)) ?_, ?_⟩
    · simp only [(h _).checkAfter, (h _).waiting, hdue, ↓reduceIte]
      exact hacc
    · simpa only [Session.due, hdue, ↓reduceIte] using h'
  · refine ⟨o, t, Accord.bind_done (fun i => Action.run_get (o i)) ?_, ?_⟩
    · simp only [(h _).checkAfter, (h _).waiting, hdue, ↓reduceIte]
      exact Accord.pure _ _ t
    · simpa only [Session.due, hdue, ↓reduceIte] using h

theorem exchange_reflects (hcap : capacity ≠ some 0) (hpos : 0 < n) (hn : 2 * n < wordRange)
    (hkey : ∀ i, Element.isCanonical (key i)) (h : ∀ i, Reflects a mode checkAfter i u (o i))
    (hp : u.phase = .accumulating) (t : Fin n → Tape) :
    ∃ o' t', Accord capacity (fun i => Opener.exchange (Player.numbered i)) o t (fun _ => ())
        o' t' ∧ ∀ i, Reflects a mode checkAfter i (u.exchange.due checkAfter) (o' i) := by
  obtain ⟨aggregator, hacc, ha⟩ := Opener.exchangeShares_accord hcap hpos hn
    (fun i => (h i).mode) (fun i => (h i).aggregator) u.batch
    (fun i => ((h i).collected hp).1) (fun i => ((h i).collected hp).2.1) t
  obtain ⟨o', t', hdue, h'⟩ := checkIfDue_reflects hcap (by omega) hkey
    (fun i => (h i).record hp (ha i)) t
  exact ⟨o', t', hacc.bind (Accord.bind_done (fun _ => rfl) hdue), h'⟩

theorem openAll_reflects (hcap : capacity ≠ some 0) (hpos : 0 < n) (hn : 2 * n < wordRange)
    (hkey : ∀ i, Element.isCanonical (key i)) (h : ∀ i, Reflects a mode checkAfter i u (o i))
    (b : List (Sharing T key)) (t : Fin n → Tape) :
    ∃ o' t', Accord capacity
        (fun i => Opener.openAll (Player.numbered i) (b.map (·.share i))) o t
        (fun _ => b.map (·.secret)) o' t' ∧
      ∀ i, Reflects a mode checkAfter i (u.step checkAfter (.openAll b)) (o' i) := by
  have hbatch : ∀ i, Reflects a mode checkAfter i { u with phase := .accumulating, batch := b }
      ((b.map (·.share i)).foldl (fun o share => o.prepare share none) (o i).start) :=
    fun i => (h i).start.prepareAll rfl b
  obtain ⟨o', t', hacc, h'⟩ := exchange_reflects hcap hpos hn hkey hbatch rfl t
  have hphase : ∀ v : Session T key, (v.due checkAfter).phase = v.phase ∧
      (v.due checkAfter).batch = v.batch ∧ (v.due checkAfter).finish = v.finish.due checkAfter := by
    intro v
    unfold Session.due
    split <;> simp [Session.finish, *]
  obtain ⟨hp, hb, hf⟩ := hphase
    (Session.exchange { u with phase := .accumulating, batch := b })
  have hopened : ∀ i, (o' i).opened = b.map (·.secret) := fun i => by
    rw [(h' i).shown hp, hb]
    rfl
  refine ⟨fun i => (o' i).finish.2, t', Accord.bind_done (fun _ => rfl) (hacc.bind ?_), ?_⟩
  · exact Accord.of_done (fun i => by rw [← hopened i]; rfl) t'
  · intro i
    have hfinish := (h' i).finish
    rw [hf] at hfinish
    exact hfinish

/-- Every task that is allowed succeeds, with the answer of the session. -/
theorem Task.run_reflects (hcap : capacity ≠ some 0) (hpos : 0 < n) (hn : 2 * n < wordRange)
    (hkey : ∀ i, Element.isCanonical (key i)) (h : ∀ i, Reflects a mode checkAfter i u (o i))
    (task : Task T key) (hallows : u.Allows task) (t : Fin n → Tape) :
    ∃ o' t', Accord capacity (fun i => (task.operation i).run (Player.numbered i)) o t
        (fun _ => u.answer task) o' t' ∧
      ∀ i, Reflects a mode checkAfter i (u.step checkAfter task) (o' i) := by
  have hn' : n < wordRange := by omega
  cases task with
  | start count room =>
    refine ⟨fun i => (o i).start, t, Accord.bind_done (a := fun _ => ()) (fun i => ?_)
      (Accord.pure _ _ t), fun i => (h i).start⟩
    rw [← (o i).startFor_eq room]
    rfl
  | prepare s =>
    exact ⟨_, t, Accord.bind_done (fun _ => rfl) (Accord.pure _ _ t), fun i => (h i).prepare s⟩
  | exchange =>
    obtain ⟨o', t', hacc, h'⟩ := exchange_reflects hcap hpos hn hkey h hallows t
    exact ⟨o', t', hacc.bind (Accord.pure _ _ t'), h'⟩
  | finish =>
    refine ⟨fun i => (o i).finish.2, t, Accord.of_done (fun i => ?_) t, fun i => (h i).finish⟩
    rw [Session.answer, ← (h i).shown hallows]
    rfl
  | openAll b => exact openAll_reflects hcap hpos hn hkey h b t
  | openOne s =>
    obtain ⟨o', t', hacc, h'⟩ := openAll_reflects hcap hpos hn hkey h [s] t
    have hone : Accord capacity (fun i => Opener.openOne (Player.numbered i) (s.share i)) o t
        (fun _ => s.secret) o' t' := hacc.bind (Accord.pure _ _ t')
    exact ⟨o', t', hone.bind (Accord.pure _ _ t'), h'⟩
  | addToCheck s =>
    obtain ⟨o', t', hacc, h'⟩ := checkIfDue_reflects hcap hn' hkey (fun i => (h i).addWaiting s) t
    have hadd : Accord capacity
        (fun i => Opener.addToCheck (Player.numbered i) (s.share i) s.secret) o t (fun _ => ())
        o' t' := Accord.bind_done (fun _ => rfl) hacc
    exact ⟨o', t', hadd.bind (Accord.pure _ _ t'), h'⟩
  | check =>
    obtain ⟨o', t', hacc, h'⟩ := check_reflects hcap hn' hkey h t
    exact ⟨o', t', hacc.bind (Accord.pure _ _ t'), h'⟩
  | checkIfDue =>
    obtain ⟨o', t', hacc, h'⟩ := checkIfDue_reflects hcap hn' hkey h t
    exact ⟨o', t', hacc.bind (Accord.pure _ _ t'), h'⟩

theorem runAll_reflects (hcap : capacity ≠ some 0) (hpos : 0 < n) (hn : 2 * n < wordRange)
    (hkey : ∀ i, Element.isCanonical (key i)) (h : ∀ i, Reflects a mode checkAfter i u (o i))
    (tasks : List (Task T key)) (hallows : u.AllowsAll checkAfter tasks) (t : Fin n → Tape) :
    ∃ (o' : Fin n → Opener T) (t' : Fin n → Tape), World.Together capacity
      (fun i => (runAll (Player.numbered i) (tasks.map (·.operation i))).run (o i)) t
      (fun i => (u.answers checkAfter tasks, o' i)) t' := by
  induction tasks generalizing u o t with
  | nil => exact ⟨o, t, World.Together.pure _ t⟩
  | cons task tasks ih =>
    obtain ⟨hfirst, hrest⟩ := hallows
    obtain ⟨o', t', hacc, h'⟩ := task.run_reflects hcap hpos hn hkey h hfirst t
    obtain ⟨o'', t'', htog⟩ := ih h' hrest t'
    refine ⟨o'', t'', World.Together.bind hacc (World.Together.bind
      (World.Together.pure (fun i => (o' i, o' i)) t') (World.Together.bind htog ?_))⟩
    simp only [(h' _).waiting]
    exact World.Together.pure _ t''

end Accord

/-- However the players' messages are interleaved and whatever they draw, all operations of
all players succeed, with the answers of the session. There are as many players as signed
words can number. -/
theorem runAll_endsIn (hcap : capacity ≠ some 0) (hpos : 0 < n) (hn : 2 * n < wordRange)
    (c : Config) (mode : ExchangeMode) (key : Fin n → Mersenne61) (hkey : ∀ i, (key i).Canonical)
    (tasks : List (Task Mersenne61 key)) (hallows : Session.empty.AllowsAll c.checkAfter tasks)
    (t : Fin n → Tape) :
    ∃ (o : Fin n → Opener Mersenne61) (t' : Fin n → Tape), World.EndsIn capacity
      (World.start (fun i => (runAll (Player.numbered i) (tasks.map (·.operation i))).run
        (.new mode (key i) c)) t .empty)
      (World.start (fun i => .done (Session.empty.answers c.checkAfter tasks, o i)) t' .empty) := by
  have hcan : ∀ i, Element.isCanonical (key i) := fun i => decide_eq_true (hkey i)
  obtain ⟨o, t', h⟩ := runAll_reflects hcap hpos hn hcan
    (fun i => Reflects.new mode c i) tasks hallows t
  exact ⟨o, t', h.endsIn⟩

theorem runAll_endsIn_two :
    ∃ (o : Fin 2 → Opener Mersenne61) (t' : Fin 2 → Tape), World.EndsIn none
      (World.start (fun i => (runAll (Player.numbered i)
        [.prepare (Sharing.seven.share i) none, .exchange, .finish,
          .openAll [Sharing.seven.share i], .check]).run
        (.new .aggregated (sevenKey i) .default)) (fun _ _ => zeroBytes) .empty)
      (World.start (fun i => .done ([(.ok [], 0), (.ok [], 1), (.ok [⟨7⟩], 1), (.ok [⟨7⟩], 2),
        (.ok [], 0)], o i)) t' .empty) :=
  runAll_endsIn (by simp) (by decide) (by decide) .default .aggregated sevenKey (by decide)
    [.prepare .seven, .exchange, .finish, .openAll [.seven], .check]
    ⟨trivial, rfl, rfl, trivial, trivial, trivial⟩ (fun _ _ => zeroBytes)

end AuthShares
