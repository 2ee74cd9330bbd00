import AuthShares.Proofs.Opening.Commands
import AuthShares.Proofs.Opening.RingCommands
import Mathlib.Logic.Basic

/-!
# After an exchange that failed

An exchange fails in one of two ways. If the shares could not be summed, the batch is discarded and
all that waits for a check still waits. If they were summed, it is the check after them that failed,
and nothing waits any more. Either way nothing of the batch is left that could get into the next
one: that is collected, opened and checked as if there had never been a batch.
-/

set_option autoImplicit false

namespace AuthShares

namespace Opener

variable {T : Type}

/-- A new opener with the same parameters, in which the same waits for a check. -/
def renewed (o : Opener T) : Opener T :=
  { new o.mode o.keyShare o.config with
    waitingValues := o.waitingValues
    waitingMacs := o.waitingMacs }

structure Discards (o o' : Opener T) : Prop where
  phase : o'.phase = .idle
  opened : o'.opened = []
  lengths : o'.lengths = []
  pendingMacs : o'.pendingMacs = []
  waitingValues : o'.waitingValues = o.waitingValues
  waitingMacs : o'.waitingMacs = o.waitingMacs

structure Emptied (o : Opener T) : Prop where
  phase : o.phase = .exchanged
  pendingMacs : o.pendingMacs = []
  waitingValues : o.waitingValues = []
  waitingMacs : o.waitingMacs = []

variable [MacElement T] {player : Player} {o o' : Opener T} {e : Error}

theorem parameters_of_exchangeShares {r : Except Error Unit}
    (h : (exchangeShares player).Ends o r o') : o.SameParameters o' := by
  obtain ⟨opened, packed, -, -, rfl⟩ | ⟨_, packed, -, rfl⟩ := exchangeShares_ends h
  · exact ⟨rfl, rfl, rfl⟩
  · exact ⟨rfl, rfl, rfl⟩

theorem discards_of_exchangeShares (h : (exchangeShares player).Ends o (.error e) o') :
    o.Discards o' := by
  obtain ⟨_, _, hr, -⟩ | ⟨_, packed, -, rfl⟩ := exchangeShares_ends h
  · cases hr
  · exact ⟨rfl, rfl, rfl, rfl, rfl, rfl⟩

theorem gather_of_begins {c : Command T} (hc : c.Begins) (h : ¬ o.phase = .accumulating) :
    c.gather o = c.gather o.start := by
  cases c with
  | setTopology field n => exact hc.elim
  | operate operation =>
    cases operation with
    | start count room =>
      simp only [Command.gather, startFor_eq _ room]
      rfl
    | prepare share len =>
      show o.prepare share len = o.start.prepare share len
      rw [prepare_eq_single h, prepare_eq_append (o := o.start) rfl]
      rfl
    | openAll shares => rfl
    | openOne share => rfl
    | _ => exact hc.elim

variable [Wire T]

theorem emptied_of_check {u : Opener T} (hphase : u.phase = .exchanged)
    (hpending : u.pendingMacs = []) (h : (check player).Ends u (.error e) o') : o'.Emptied := by
  rw [check_ends h]
  exact ⟨hphase, hpending, rfl, rfl⟩

/-- Once no shares are being collected, a batch begins as in a new opener. -/
theorem same_renewed {c : Command T} (hc : c.Begins) (commands : List (Command T))
    (h : ¬ o.phase = .accumulating) :
    (machine player).SameFrom Repacked (c :: commands) o o.renewed := by
  have hstart : ∀ u : Opener T, ¬ u.phase = .accumulating →
      ((machine player).collect c).run.run u = ((machine player).collect c).run.run u.start :=
    fun u hu => congrArg
      (fun v => (if c.Opens then openPending player else pure ()).run.run v) (gather_of_begins hc hu)
  refine machine_ignores.cons_same (fun _ _ => machine_ignores.same commands _ _) ?_
  -- started over, the two openers differ only in the message that was packed last
  rw [hstart o h, hstart o.renewed fun h => by cases h]
  exact machine_ignores.collect c _ _ ⟨[], rfl⟩

theorem exchange_fails (h : (exchange player).Ends o (.error e) o') :
    (exchangeShares player).Ends o (.error e) o' ∨
      ∃ u, (exchangeShares player).Yields o () u ∧ u.record.checkAfter ≤ u.record.waiting ∧
        (check player).Ends u.record (.error e) o' := Action.ends_checked h

theorem parameters_of_exchange (h : (exchange player).Ends o (.error e) o') :
    o.SameParameters o' := by
  obtain hshares | ⟨u, hshares, -, hcheck⟩ := exchange_fails h
  · exact parameters_of_exchangeShares hshares
  · obtain ⟨hkey, hmode, hconfig⟩ := parameters_of_exchangeShares hshares
    rw [check_ends hcheck]
    exact ⟨hkey, hmode, hconfig⟩

theorem exchange_fails_once (h : (exchange player).Ends o (.error e) o') :
    Xor ((exchangeShares player).Ends o (.error e) o' ∧ o.Discards o')
      (∃ u, (exchangeShares player).Yields o () u ∧ u.record.checkAfter ≤ u.record.waiting ∧
        (check player).Ends u.record (.error e) o' ∧ o'.Emptied) := by
  obtain hshares | ⟨u, hshares, hdue, hcheck⟩ := exchange_fails h
  · have hdiscards := discards_of_exchangeShares hshares
    -- the phase tells a batch that was discarded from one that was opened
    refine .inl ⟨⟨hshares, hdiscards⟩, fun ⟨_, _, _, _, hemptied⟩ => ?_⟩
    cases hdiscards.phase.symm.trans hemptied.phase
  · have hemptied := emptied_of_check (u := u.record) rfl rfl hcheck
    refine .inr ⟨⟨u, hshares, hdue, hcheck, hemptied⟩, fun ⟨_, hdiscards⟩ => ?_⟩
    cases hdiscards.phase.symm.trans hemptied.phase

end Opener

namespace RingOpener

variable {T : Type}

def renewed (o : RingOpener T) : RingOpener T :=
  { new o.base.mode o.base.keyShare o.base.config with
    base := o.base.renewed
    masks := o.masks
    waitingShares := o.waitingShares }

structure Discards (o o' : RingOpener T) : Prop where
  base : o.base.Discards o'.base
  pendingShares : o'.pendingShares = []
  waitingShares : o'.waitingShares = o.waitingShares
  masks : o'.masks = o.masks

structure Emptied (o : RingOpener T) : Prop where
  base : o.base.Emptied
  pendingShares : o.pendingShares = []
  waitingShares : o.waitingShares = []

variable [RingElement T] {player : Player} {o o' : RingOpener T} {e : Error}

theorem parameters_of_exchangeShares {r : Except Error Unit}
    (h : (exchangeShares player).Ends o r o') : o.base.SameParameters o'.base := by
  obtain ⟨opened, packed, -, -, rfl⟩ | ⟨_, packed, -, rfl⟩ := exchangeShares_ends h
  · exact ⟨rfl, rfl, rfl⟩
  · exact ⟨rfl, rfl, rfl⟩

theorem discards_of_exchangeShares (h : (exchangeShares player).Ends o (.error e) o') :
    o.Discards o' := by
  obtain ⟨_, _, hr, -⟩ | ⟨_, packed, -, rfl⟩ := exchangeShares_ends h
  · cases hr
  · exact ⟨⟨rfl, rfl, rfl, rfl, rfl, rfl⟩, rfl, rfl, rfl⟩

theorem gather_of_begins {c : RingCommand T} (hc : c.Begins)
    (h : ¬ o.base.phase = .accumulating) : c.gather o = c.gather o.start := by
  cases c with
  | setMasks masks => exact hc.elim
  | setTopology field n => exact hc.elim
  | operate operation =>
    cases operation with
    | start count room =>
      simp only [RingCommand.gather, startFor_eq _ room]
      rfl
    | prepare share => exact prepare_start h share
    | openAll shares => rfl
    | _ => exact hc.elim

variable [Wire T] [DecidableEq T]

theorem emptied_of_check {u : RingOpener T} (hphase : u.base.phase = .exchanged)
    (hpending : u.base.pendingMacs = []) (hshares : u.pendingShares = [])
    (h : (check player).Ends u (.error e) o') : o'.Emptied := by
  have hwaiting : ¬ u.waiting = 0 := fun hzero => by
    replace h := Action.ends_get_bind.mp h
    simp only [hzero, ↓reduceIte] at h
    cases h
  obtain ⟨packed, rfl⟩ := check_ends h
  unfold checked
  rw [if_neg hwaiting]
  split
  · exact ⟨⟨hphase, hpending, rfl, rfl⟩, hshares, rfl⟩
  · exact ⟨⟨hphase, hpending, rfl, rfl⟩, hshares, rfl⟩

/-- Once no shares are being collected, a batch begins as in a new opener. -/
theorem same_renewed {c : RingCommand T} (hc : c.Begins) (commands : List (RingCommand T))
    (h : ¬ o.base.phase = .accumulating) :
    (machine player).SameFrom Repacked (c :: commands) o o.renewed := by
  have hstart : ∀ u : RingOpener T, ¬ u.base.phase = .accumulating →
      ((machine player).collect c).run.run u = ((machine player).collect c).run.run u.start :=
    fun u hu => congrArg
      (fun v => (if c.Opens then openPending player else pure ()).run.run v) (gather_of_begins hc hu)
  refine machine_ignores.cons_same (fun _ _ => machine_ignores.same commands _ _) ?_
  rw [hstart o h, hstart o.renewed fun h => by cases h]
  exact machine_ignores.collect c _ _ ⟨[], rfl⟩

theorem exchange_fails (h : (exchange player).Ends o (.error e) o') :
    (exchangeShares player).Ends o (.error e) o' ∨
      ∃ u, (exchangeShares player).Yields o () u ∧
        u.record.base.checkAfter ≤ u.record.waiting ∧
        (check player).Ends u.record (.error e) o' := Action.ends_checked h

theorem parameters_of_exchange (h : (exchange player).Ends o (.error e) o') :
    o.base.SameParameters o'.base := by
  obtain hshares | ⟨u, hshares, -, hcheck⟩ := exchange_fails h
  · exact parameters_of_exchangeShares hshares
  · obtain ⟨hkey, hmode, hconfig⟩ := parameters_of_exchangeShares hshares
    obtain ⟨packed, hchecked⟩ := check_ends hcheck
    rw [hchecked, checked_base]
    exact ⟨hkey, hmode, hconfig⟩

theorem exchange_fails_once (h : (exchange player).Ends o (.error e) o') :
    Xor ((exchangeShares player).Ends o (.error e) o' ∧ o.Discards o')
      (∃ u, (exchangeShares player).Yields o () u ∧
        u.record.base.checkAfter ≤ u.record.waiting ∧
        (check player).Ends u.record (.error e) o' ∧ o'.Emptied) := by
  obtain hshares | ⟨u, hshares, hdue, hcheck⟩ := exchange_fails h
  · have hdiscards := discards_of_exchangeShares hshares
    refine .inl ⟨⟨hshares, hdiscards⟩, fun ⟨_, _, _, _, hemptied⟩ => ?_⟩
    cases hdiscards.base.phase.symm.trans hemptied.base.phase
  · have hemptied := emptied_of_check (u := u.record) rfl rfl rfl hcheck
    refine .inr ⟨⟨u, hshares, hdue, hcheck, hemptied⟩, fun ⟨_, hdiscards⟩ => ?_⟩
    cases hdiscards.base.phase.symm.trans hemptied.base.phase

end RingOpener

/-- An exchange that fails has either failed to sum the shares, and then the batch is discarded and
all that waits for a check still waits, with no mask taken; or the check after it has failed, and
then nothing waits, nor is about to. Both cannot be. Whatever is done next, if it starts with a new
batch it is done as in a new opener in which the same waits for a check. -/
theorem exchange_fails_cleanly {T R : Type} [MacElement T] [Wire T] [RingElement R] [Wire R]
    [DecidableEq R] (player : Player) (e : Error) :
    (∀ o o' : Opener T, (Opener.exchange player).Ends o (.error e) o' →
      Xor ((Opener.exchangeShares player).Ends o (.error e) o' ∧ o.Discards o')
        (∃ u, (Opener.exchangeShares player).Yields o () u ∧
          u.record.checkAfter ≤ u.record.waiting ∧
          (Opener.check player).Ends u.record (.error e) o' ∧ o'.Emptied) ∧
      o.SameParameters o' ∧ ∀ (c : Command T) (commands : List (Command T)), c.Begins →
        (Opener.machine player).SameFrom Opener.Repacked (c :: commands) o' o'.renewed) ∧
    ∀ o o' : RingOpener R, (RingOpener.exchange player).Ends o (.error e) o' →
      Xor ((RingOpener.exchangeShares player).Ends o (.error e) o' ∧ o.Discards o')
        (∃ u, (RingOpener.exchangeShares player).Yields o () u ∧
          u.record.base.checkAfter ≤ u.record.waiting ∧
          (RingOpener.check player).Ends u.record (.error e) o' ∧ o'.Emptied) ∧
      o.base.SameParameters o'.base ∧
      ∀ (c : RingCommand R) (commands : List (RingCommand R)), c.Begins →
        (RingOpener.machine player).SameFrom RingOpener.Repacked (c :: commands) o'
          o'.renewed := by
  refine ⟨fun o o' h => ?_, fun o o' h => ?_⟩
  · have honce := Opener.exchange_fails_once h
    refine ⟨honce, Opener.parameters_of_exchange h, fun c commands hc =>
      Opener.same_renewed hc commands ?_⟩
    obtain ⟨⟨-, hdiscards⟩, -⟩ | ⟨⟨-, -, -, -, hemptied⟩, -⟩ := honce
    · simp [hdiscards.phase]
    · simp [hemptied.phase]
  · have honce := RingOpener.exchange_fails_once h
    refine ⟨honce, RingOpener.parameters_of_exchange h, fun c commands hc =>
      RingOpener.same_renewed hc commands ?_⟩
    obtain ⟨⟨-, hdiscards⟩, -⟩ | ⟨⟨-, -, -, -, hemptied⟩, -⟩ := honce
    · simp [hdiscards.base.phase]
    · simp [hemptied.base.phase]

/-- A batch of two players that cannot be sent, while a value waits; and a batch of a single player
who has no masks, and checks every value at once. -/
theorem exchange_fails_cleanly_cutOff :
    (∃ o o' : Opener Mersenne61, o.waitingValues = [⟨5⟩] ∧
      (Opener.exchange ⟨0, 2, by decide⟩).Ends o (.error (.channel (.send openingPhase .closed)))
        o' ∧ o.Discards o') ∧
    ∃ o o' : RingOpener Ring128, o.base.opened = [⟨7⟩] ∧
      (RingOpener.exchange ⟨0, 1, by decide⟩).Ends o (.error .missingPreprocessing) o' ∧
      o'.Emptied := by
  let field : Opener Mersenne61 :=
    ((Opener.new .direct ⟨3⟩ .default).addWaiting ⟨15⟩ ⟨5⟩).prepare ⟨⟨7⟩, ⟨21⟩⟩ none
  let ring : RingOpener Ring128 :=
    (RingOpener.new .direct ⟨3⟩ ⟨0, 0, 0, 1⟩).prepare ⟨⟨7⟩, ⟨21⟩⟩
  have hfield : (Opener.exchange ⟨0, 2, by decide⟩).Ends field
      (.error (.channel (.send openingPhase .closed))) (field.clear .idle) :=
    .scatter (.error (.send openingPhase .closed)) (.done _)
  have hring : (RingOpener.exchange ⟨0, 1, by decide⟩).Ends ring (.error .missingPreprocessing)
      ring.record.clearWaiting :=
    .scatter (.ok ()) (.gather (.ok []) (.done _))
  refine ⟨⟨field, _, rfl, hfield, ?_⟩, ring, _, rfl, hring, ?_⟩
  · obtain ⟨⟨-, h⟩, -⟩ | ⟨⟨_, -, -, -, h⟩, -⟩ :=
      ((exchange_fails_cleanly (R := Ring128) _ _).1 field _ hfield).1
    · exact h
    · cases h.phase
  · obtain ⟨⟨-, h⟩, -⟩ | ⟨⟨_, -, -, -, h⟩, -⟩ :=
      ((exchange_fails_cleanly (T := Mersenne61) _ _).2 ring _ hring).1
    · cases h.base.phase
    · exact h

end AuthShares
