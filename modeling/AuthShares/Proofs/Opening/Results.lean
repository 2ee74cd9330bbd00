import AuthShares.Proofs.Aggregation.Packing
import AuthShares.Proofs.Aggregation.Sizes
import AuthShares.Proofs.Opening.Operations

/-!
# What an operation can come to

Whatever the network does, an exchange leaves either an idle opener without values or one that
has exchanged as many values as it had. A check concerns nothing but what waits for it.
-/

set_option autoImplicit false

namespace AuthShares

variable {T α β : Type}

namespace Opener

def config (o : Opener T) : Config :=
  ⟨o.aggregator.fanIn, o.aggregator.fanOut, o.aggregator.root, o.checkAfter⟩

structure SameParameters (o o' : Opener T) : Prop where
  keyShare : o'.keyShare = o.keyShare
  mode : o'.mode = o.mode
  config : o'.config = o.config

structure KeepsBatch (o o' : Opener T) : Prop where
  opened : o'.opened = o.opened
  lengths : o'.lengths = o.lengths
  phase : o'.phase = o.phase

/-- An exchange that ends so has failed for a `fault` and left nothing behind, or has left values
of which `P` holds, be it with an error of the check that follows. -/
def LeavesValues (fault : Prop) (P : List T → Prop) (r : Except Error α) (o : Opener T) : Prop :=
  (fault ∧ (∃ e, r = .error e) ∧ o.phase = .idle ∧ o.opened = []) ∨
    o.phase = .exchanged ∧ P o.opened

def HandedOut (fault : Prop) (P : List T → Prop) (r : Except Error (List T)) (o : Opener T) :
    Prop :=
  (∃ v, r = .ok v ∧ P v ∧ o.phase = .idle ∧ o.opened = []) ∨
    (∃ e, r = .error e) ∧ LeavesValues fault P r o

section

variable {fault fault' : Prop} {P Q : List T → Prop} {o : Opener T}

theorem LeavesValues.mono {r : Except Error α} (h : LeavesValues fault P r o)
    (hfault : fault → fault') (hPQ : ∀ v, P v → Q v) : LeavesValues fault' Q r o :=
  h.imp (fun h => ⟨hfault h.1, h.2⟩) fun h => ⟨h.1, hPQ _ h.2⟩

theorem LeavesValues.map {r : Except Error α} (h : LeavesValues fault P r o) (g : α → β) :
    LeavesValues fault P (r.map g) o := by
  obtain ⟨hfault, ⟨e, rfl⟩, h⟩ | h := h
  · exact .inl ⟨hfault, ⟨e, rfl⟩, h⟩
  · exact .inr h

theorem LeavesValues.finish {a : α} (h : LeavesValues fault P (.ok a) o) :
    HandedOut fault P (.ok o.opened) o.finish.2 := by
  obtain ⟨-, ⟨e, he⟩, -⟩ | ⟨-, h⟩ := h
  · cases he
  · exact .inl ⟨o.opened, rfl, h, rfl, rfl⟩

theorem LeavesValues.fail {e : Error} (h : LeavesValues fault P (.error e : Except Error α) o) :
    HandedOut fault P (.error e) o :=
  .inr ⟨⟨e, rfl⟩, h.map fun _ => []⟩

theorem HandedOut.mono {r : Except Error (List T)} (h : HandedOut fault P r o)
    (hfault : fault → fault') (hPQ : ∀ v, P v → Q v) : HandedOut fault' Q r o := by
  obtain ⟨v, hr, hP, ho⟩ | ⟨hr, h⟩ := h
  · exact .inl ⟨v, hr, hPQ v hP, ho⟩
  · exact .inr ⟨hr, h.mono hfault hPQ⟩

theorem HandedOut.single {r : Except Error (List T)} (h : HandedOut fault P r o)
    (hone : ∀ v, P v → v.length = 1) (x : T) :
    HandedOut fault P ((r.map fun v => v.headD x).map fun y => [y]) o := by
  obtain ⟨v, rfl, hP, ho⟩ | ⟨⟨e, rfl⟩, h⟩ := h
  · obtain ⟨y, rfl⟩ := List.length_eq_one_iff.mp (hone v hP)
    exact .inl ⟨[y], rfl, hP, ho⟩
  · exact h.fail

end

variable [MacElement T] {player : Player} {o o' : Opener T} {r : Except Error Unit}

/-- What becomes of the values in every sum becomes of the values of the batch. -/
theorem sumShares_changes {R : List T → List T → Prop}
    (hR : ∀ lengths, Summation.Compositional lengths fun _ => Summation.Changes (T := T) R)
    {x : (Except Error Unit × List T) × Aggregator} (h : (sumShares player o).Returns x) :
    R o.opened x.1.2 := by
  unfold sumShares at h
  cases hmode : o.mode with
  | aggregated =>
    rw [hmode] at h
    obtain ⟨r, hr, hx⟩ := (Protocol.returns_bind
      ((Aggregator.exchange o.aggregator player o.lengths).run.run ⟨_, o.opened⟩) _ x).mp h
    rw [← Protocol.returns_done.mp hx]
    exact Summation.Compositional.exchange hR _ _ _ _ _ hr
  | direct =>
    rw [hmode] at h
    obtain ⟨r, hr, hx⟩ := (Protocol.returns_bind
      ((Summation.direct player o.lengths).run.run ⟨_, o.opened⟩) _ x).mp h
    rw [← Protocol.returns_done.mp hx]
    exact (hR _).direct _ _ _ hr

/-- Of its aggregator, a sum changes nothing but the message that was packed last. -/
theorem sumShares_repacks {x : (Except Error Unit × List T) × Aggregator}
    (h : (sumShares player o).Returns x) : o.aggregator.Repacked x.2 := by
  unfold sumShares at h
  cases hmode : o.mode with
  | aggregated =>
    rw [hmode] at h
    exact Aggregator.sumEach_returns h
  | direct =>
    rw [hmode] at h
    obtain ⟨r, -, hx⟩ := (Protocol.returns_bind
      ((Summation.direct player o.lengths).run.run ⟨_, o.opened⟩) _ x).mp h
    rw [← Protocol.returns_done.mp hx]
    exact .refl _

theorem exchangeShares_changes {R : List T → List T → Prop}
    (hR : ∀ lengths, Summation.Compositional lengths fun _ => Summation.Changes (T := T) R)
    (h : (exchangeShares player).Ends o r o') :
    (∃ opened packed, r = .ok () ∧ R o.opened opened ∧
        o' = { o with opened, aggregator := { o.aggregator with packed } }) ∨
      ∃ e packed, r = .error e ∧
        o' = ({ o with aggregator := { o.aggregator with packed } } : Opener T).clear .idle := by
  obtain ⟨⟨r', u⟩, hrun, h⟩ := (Protocol.returns_bind
    ((Action.ofProtocol (sumShares player o) : Action (Opener T) _).run.run o) _ _).mp h
  obtain ⟨⟨⟨r'', opened⟩, aggregator⟩, hsum, hdone⟩ :=
    (Protocol.returns_bind (sumShares player o) _ _).mp hrun
  obtain ⟨packed, rfl⟩ : o.aggregator.Repacked aggregator := sumShares_repacks hsum
  cases hdone
  cases r'' with
  | ok a =>
    cases h
    exact .inl ⟨opened, packed, rfl, sumShares_changes hR hsum, rfl⟩
  | error e =>
    cases h
    exact .inr ⟨e, packed, rfl, rfl⟩

theorem exchangeShares_ends (h : (exchangeShares player).Ends o r o') :
    (∃ opened packed, r = .ok () ∧ opened.length = o.opened.length ∧
        o' = { o with opened, aggregator := { o.aggregator with packed } }) ∨
      ∃ e packed, r = .error e ∧
        o' = ({ o with aggregator := { o.aggregator with packed } } : Opener T).clear .idle :=
  exchangeShares_changes Summation.sizes_compositional h

variable [Wire T]

/-- A check discards what waits for it, whatever it finds. -/
theorem check_ends (h : (check player).Ends o r o') : o' = o.clearWaiting := by
  replace h := Action.ends_get_bind.mp h
  by_cases hzero : o.waiting = 0
  · simp only [hzero, ↓reduceIte] at h
    cases h
    exact (clearWaiting_of_waiting_eq_zero hzero).symm
  · simp only [hzero, ↓reduceIte] at h
    obtain ⟨g, u, htoss, h⟩ | ⟨e, htoss, -⟩ := Action.ends_bind.mp (Action.ends_set_bind.mp h)
    · rw [Action.yields_interaction htoss] at h
      exact Action.ends_interaction h
    · exact Action.ends_interaction htoss

theorem checkIfDue_keeps (h : (checkIfDue player).Ends o r o') : KeepsBatch o o' := by
  replace h := Action.ends_get_bind.mp h
  by_cases hdue : o.checkAfter ≤ o.waiting
  · simp only [hdue, ↓reduceIte] at h
    rw [check_ends h]
    exact ⟨rfl, rfl, rfl⟩
  · simp only [hdue, ↓reduceIte] at h
    cases h
    exact ⟨rfl, rfl, rfl⟩

theorem exchange_ends (h : (exchange player).Ends o r o') :
    LeavesValues True (fun v => v.length = o.opened.length) r o' := by
  obtain ⟨a, u, hshares, h⟩ | ⟨e, hshares, rfl⟩ := Action.ends_bind.mp h
  · obtain ⟨opened, packed, -, hlen, rfl⟩ | ⟨e, packed, he, -⟩ :=
      exchangeShares_ends hshares
    · have hkeeps := checkIfDue_keeps (Action.ends_modify_bind.mp h)
      exact .inr ⟨hkeeps.phase, (congrArg List.length hkeeps.opened).trans hlen⟩
    · cases he
  · obtain ⟨_, _, hr, -⟩ | ⟨_, packed, -, rfl⟩ := exchangeShares_ends hshares
    · cases hr
    · exact .inl ⟨trivial, ⟨e, rfl⟩, rfl, rfl⟩

theorem openAll_ends {shares : List (Share T)} {r : Except Error (List T)}
    (h : (openAll player shares).Ends o r o') :
    HandedOut True (fun v => v.length = shares.length) r o' := by
  have hbatch : (shares.foldl (fun o share => o.prepare share none) o.start).opened.length =
      shares.length := by
    rw [prepareAll_eq rfl]
    simp [start, clear]
  obtain ⟨a, u, hexchange, h⟩ | ⟨e, hexchange, rfl⟩ :=
    Action.ends_bind.mp (Action.ends_modify_bind.mp h)
  · cases h
    exact ((exchange_ends hexchange).mono id fun v hv => hv.trans hbatch).finish
  · exact ((exchange_ends hexchange).mono id fun v hv => hv.trans hbatch).fail

end Opener

end AuthShares
