import AuthShares.Proofs.Opening.RingLockstep

/-!
# Pairings in the check over the ring

A check combines values, shares and authentications by their positions, if there are as many of
each. That tells nothing of where they stem from: batches that are finished before they are
exchanged, or that are exchanged twice, move the lists against each other, and several such
batches make up for each other's lengths. A check pairs every value with the share that it was
opened of just as long as every exchange has put as many values in wait as authentications.
-/

set_option autoImplicit false

namespace AuthShares

variable {n : Nat} {capacity : Option Nat}

namespace RingAccount

variable {u : Opener Unit} {x : RingLedger n} {s : Fin n → RingAccount n}

structure Joined (u : Opener Unit) (x : RingLedger n) (s : Fin n → RingAccount n) : Prop where
  ledger (i : Fin n) : (s i).ledger = x
  abreast : Abreast u x fun i => (s i).opener
  combined (i : Fin n) : ∀ p ∈ (s i).combined, p.2.Balanced →
    p.2.Matches (fun g a => g.opening = a) p.2.origins.base.waitingValues p.1.base.waitingValues

namespace Joined

theorem new (mode : ExchangeMode) (c : Config) (key : Fin n → Ring128) :
    Joined (Opener.new mode () c) .new fun i => (new mode (key i) c : RingAccount n) :=
  ⟨fun _ => rfl, .new mode c key, fun _ _ h => absurd h List.not_mem_nil⟩

theorem prepare (h : Joined u x s) (share : Fin n → Share Ring128) :
    Joined (u.prepare ⟨(), ()⟩ (some (RingElement.visibleBytes Ring128))) (x.prepare share)
      fun i => ⟨(s i).opener.prepare (share i), (s i).ledger.prepare share, (s i).combined⟩ :=
  ⟨fun i => by rw [h.ledger i], h.abreast.prepare share, h.combined⟩

theorem finish (h : Joined u x s) : Joined u.finish.2 x.finish
    fun i => ⟨(s i).opener.finish.2, (s i).ledger.finish, (s i).combined⟩ :=
  ⟨fun i => by rw [h.ledger i], h.abreast.finish, h.combined⟩

theorem spend (h : Joined u x s) {o' : Fin n → RingOpener Ring128}
    (hspends : ∀ i, (s i).opener.Spends (o' i))
    (hmasks : ∀ i j, (o' i).masks.map List.length = (o' j).masks.map List.length) :
    Joined u.clearWaiting (if u.waiting = 0 then x else x.clear)
      fun i => { (s i).take with opener := o' i } where
  ledger i := by
    have hwaiting : (s i).opener.waiting = u.waiting := h.abreast.alike.waiting i
    rw [take_ledger, hwaiting, h.ledger i]
  abreast := h.abreast.spend hspends hmasks
  combined i p hp hb := by
    obtain hp | ⟨-, rfl⟩ := mem_take_combined hp
    · exact h.combined i p hp hb
    · rw [h.ledger i] at hb ⊢
      exact h.abreast.openings i hb

end Joined

variable (hcap : capacity ≠ some 0) (hpos : 0 < n) (hn : 2 * n < wordRange)

include hcap hpos hn

theorem check_together (h : Joined u x s) (t : Fin n → Tape) :
    ∃ (r : Except Error Unit) (u' : Opener Unit) (x' : RingLedger n) (s' : Fin n → RingAccount n)
      (t' : Fin n → Tape), World.Together capacity
        (fun i => (check (Player.numbered i)).run.run (s i)) t (fun i => (r, s' i)) t' ∧
      Joined u' x' s' := by
  obtain ⟨r, o', t', htog, hmasks⟩ :=
    RingOpener.check_alike hcap hpos hn h.abreast.alike h.abreast.matched t
  have hspends := fun i => RingOpener.spends_of_check (htog.returns i)
  simp only [← fun i => opener_take (s i)] at htog
  exact ⟨r, _, _, _, t', Accord.thenDo (Accord.of_done (fun _ => rfl) t) htog.zoom,
    h.spend hspends hmasks⟩

theorem checkIfDue_together (h : Joined u x s) (t : Fin n → Tape) :
    ∃ (r : Except Error Unit) (u' : Opener Unit) (x' : RingLedger n) (s' : Fin n → RingAccount n)
      (t' : Fin n → Tape), World.Together capacity
        (fun i => (checkIfDue (Player.numbered i)).run.run (s i)) t (fun i => (r, s' i)) t' ∧
      Joined u' x' s' := by
  have hiff : ∀ i, (s i).opener.base.checkAfter ≤ (s i).opener.waiting ↔
      u.checkAfter ≤ u.waiting := fun i => by
    rw [h.abreast.alike.checkAfter i, RingOpener.waiting, h.abreast.alike.waiting i]
  by_cases hdue : u.checkAfter ≤ u.waiting
  · obtain ⟨r, u', x', s', t', htog, h'⟩ := check_together hcap hpos hn h t
    refine ⟨r, u', x', s', t', Accord.thenDo (Accord.of_done (fun i => Action.run_get (s i)) t) ?_,
      h'⟩
    simp only [hiff, hdue, ↓reduceIte]
    exact htog
  · refine ⟨.ok (), u, x, s, t, Accord.bind_done (fun i => Action.run_get (s i)) ?_, h⟩
    simp only [hiff, hdue, ↓reduceIte]
    exact Accord.pure _ _ t

/-- The lower halves of the sums are put in wait, and a check follows if it is due. -/
theorem record_together (h : Joined u x s) (t : Fin n → Tape) :
    ∃ s' : Fin n → RingAccount n, Joined u.record x.exchange s' ∧
      (∀ i, (s' i).combined = (s i).combined ∧ (s' i).opener.masks = (s i).opener.masks) ∧
      ∀ (r : Except Error Unit) (s'' : Fin n → RingAccount n) (t' : Fin n → Tape),
        World.Together capacity (fun i => (checkIfDue (Player.numbered i)).run.run (s' i)) t
          (fun i => (r, s'' i)) t' →
        World.Together capacity (fun i => (exchange (Player.numbered i)).run.run (s i)) t
          (fun i => (r, s'' i)) t' := by
  obtain ⟨v, aggregator, hacc, hv, ha⟩ :=
    RingOpener.exchangeShares_alike hcap hpos hn h.abreast.alike h.abreast.lows t
  have hledger : ∀ i, (s i).ledger.record (v i).length (s i).opener.base.pendingMacs.length =
      x.exchange := fun i => by
    rw [h.ledger i, (hv i).1, (h.abreast.traces i).opened,
      ← (h.abreast.traces i).pendingMacs.length_eq, RingLedger.exchange]
  have hshares : Accord capacity (fun i => exchangeShares (Player.numbered i)) s t (fun _ => ())
      (fun i => { s i with opener := { (s i).opener with
        base := { (s i).opener.base with opened := v i, aggregator := aggregator i } } }) t :=
    Accord.tryCatch (Accord.zoom hacc) _
  refine ⟨fun i => ⟨_, (s i).ledger.record (v i).length (s i).opener.base.pendingMacs.length,
    (s i).combined⟩, ⟨hledger, h.abreast.record hpos hv ha, h.combined⟩, fun _ => ⟨rfl, rfl⟩,
    fun r s'' t' htog => ?_⟩
  exact hshares.thenDo (Accord.thenDo (Accord.of_done (fun _ => rfl) t)
    (Accord.thenDo (Accord.of_done (fun _ => rfl) t) htog))

theorem exchange_together (h : Joined u x s) (t : Fin n → Tape) :
    ∃ (r : Except Error Unit) (u' : Opener Unit) (x' : RingLedger n) (s' : Fin n → RingAccount n)
      (t' : Fin n → Tape), World.Together capacity
        (fun i => (exchange (Player.numbered i)).run.run (s i)) t (fun i => (r, s' i)) t' ∧
      Joined u' x' s' := by
  obtain ⟨s', hrecord, -, hrun⟩ := record_together hcap hpos hn h t
  obtain ⟨r, u'', x'', s'', t', htog, h''⟩ := checkIfDue_together hcap hpos hn hrecord t
  exact ⟨r, u'', x'', s'', t', hrun _ _ _ htog, h''⟩

theorem openAll_together (h : Joined u x s) (shares : List (Fin n → Share Ring128))
    (t : Fin n → Tape) :
    ∃ (r : Fin n → Except Error (List Ring128)) (u' : Opener Unit) (x' : RingLedger n)
      (s' : Fin n → RingAccount n) (t' : Fin n → Tape), World.Together capacity
        (fun i => (openAll i shares).run.run (s i)) t (fun i => (r i, s' i)) t' ∧
      Joined u' x' s' := by
  obtain ⟨v, hbatch⟩ := h.abreast.start.prepareAll shares
  have hjoined : Joined v (shares.foldl RingLedger.prepare x.start) fun i =>
      ⟨(shares.map (· i)).foldl RingOpener.prepare (s i).opener.start,
        shares.foldl RingLedger.prepare x.start, (s i).combined⟩ :=
    ⟨fun _ => rfl, hbatch, h.combined⟩
  obtain ⟨r, u', x', s', t', htog, h'⟩ := exchange_together hcap hpos hn hjoined t
  cases r with
  | ok a =>
    refine ⟨fun i => .ok (s' i).opener.base.opened, u'.finish.2, x'.finish,
      fun i => ⟨(s' i).opener.finish.2, (s' i).ledger.finish, (s' i).combined⟩, t', ?_,
      h'.finish⟩
    refine Accord.thenDo (Accord.of_done (fun _ => rfl) t)
      (Accord.thenDo (Accord.of_done (fun _ => rfl) t) ?_)
    simp only [h.ledger]
    exact Accord.thenDo htog (Accord.of_done (fun _ => rfl) t')
  | error e =>
    refine ⟨fun _ => .error e, u', x', s', t', ?_, h'⟩
    refine Accord.thenDo (Accord.of_done (fun _ => rfl) t)
      (Accord.thenDo (Accord.of_done (fun _ => rfl) t) ?_)
    simp only [h.ledger]
    exact World.Together.bind htog (World.Together.pure _ t')

theorem joint_together (h : Joined u x s) (joint : RingJoint n) (t : Fin n → Tape) :
    ∃ (r : Fin n → Except Error (List Ring128)) (u' : Opener Unit) (x' : RingLedger n)
      (s' : Fin n → RingAccount n) (t' : Fin n → Tape), World.Together capacity
        (fun i => (joint.account i).run.run (s i)) t (fun i => (r i, s' i)) t' ∧
      Joined u' x' s' := by
  cases joint with
  | setMasks masks =>
    exact ⟨_, u, x,
      fun i => ⟨(s i).opener.setMasks (masks.map (· i)), (s i).ledger, (s i).combined⟩, t,
      Accord.of_done (fun _ => rfl) t, h.ledger, h.abreast.setMasks masks, h.combined⟩
  | start count room =>
    refine ⟨_, u.start, x.start, fun i => ⟨_, (s i).ledger.start, (s i).combined⟩, t,
      Accord.of_done (a := fun _ => []) (fun _ => rfl) t, fun i => by rw [h.ledger i], ?_,
      h.combined⟩
    simp only [RingOpener.startFor_eq _ room]
    exact h.abreast.start
  | prepare share =>
    exact ⟨_, _, _, _, t, Accord.of_done (fun _ => rfl) t, h.prepare share⟩
  | exchange =>
    obtain ⟨r, u', x', s', t', htog, h'⟩ := exchange_together hcap hpos hn h t
    exact ⟨_, u', x', s', t', htog.mapValue fun _ _ => [], h'⟩
  | finish =>
    exact ⟨_, _, _, _, t, Accord.of_done (fun _ => rfl) t, h.finish⟩
  | openAll shares => exact openAll_together hcap hpos hn h shares t
  | addToCheck share opened =>
    have hjoined : Joined (u.addWaiting () ()) (x.addWaiting share opened) fun i =>
        ⟨_, (s i).ledger.addWaiting share opened, (s i).combined⟩ :=
      ⟨fun i => by rw [h.ledger i], h.abreast.addWaiting share opened, h.combined⟩
    obtain ⟨r, u', x', s', t', htog, h'⟩ := checkIfDue_together hcap hpos hn hjoined t
    refine ⟨fun _ => r.map fun _ => [], u', x', s', t',
      World.Together.mapValue (fun _ _ => []) ?_, h'⟩
    exact Accord.thenDo (Accord.of_done (fun _ => rfl) t)
      (Accord.thenDo (Accord.of_done (fun _ => rfl) t) htog)
  | check =>
    obtain ⟨r, u', x', s', t', htog, h'⟩ := check_together hcap hpos hn h t
    exact ⟨_, u', x', s', t', htog.mapValue fun _ _ => [], h'⟩

omit hcap hpos hn in
theorem noteAll_cons {joint : RingJoint n} {rest : List (RingJoint n)}
    {s' s'' : Fin n → RingAccount n}
    {r : Fin n → Except Error (List Ring128)} {notes : Fin n → List (RingOpener.Note Ring128)}
    {t t' t'' : Fin n → Tape}
    (h : World.Together capacity (fun i => (joint.account i).run.run (s i)) t
      (fun i => (r i, s' i)) t')
    (hrest : World.Together capacity (fun i => (noteAll i rest).run (s' i)) t'
      (fun i => (notes i, s'' i)) t'') :
    World.Together capacity (fun i => (noteAll i (joint :: rest)).run (s i)) t
      (fun i => ((r i, (s' i).opener.waiting, (s' i).opener.masks) :: notes i, s'' i)) t'' :=
  World.Together.bind h (World.Together.bind (World.Together.pure (fun i => (s' i, s' i)) t')
    (World.Together.bind hrest (World.Together.pure _ t'')))

theorem noteAll_together (h : Joined u x s) (joints : List (RingJoint n)) (t : Fin n → Tape) :
    ∃ (notes : Fin n → List (RingOpener.Note Ring128)) (u' : Opener Unit) (x' : RingLedger n)
      (s' : Fin n → RingAccount n) (t' : Fin n → Tape), World.Together capacity
        (fun i => (noteAll i joints).run (s i)) t (fun i => (notes i, s' i)) t' ∧
      Joined u' x' s' := by
  induction joints generalizing u x s t with
  | nil => exact ⟨fun _ => [], u, x, s, t, World.Together.pure _ t, h⟩
  | cons joint rest ih =>
    obtain ⟨r, u', x', s', t', htog, h'⟩ := joint_together hcap hpos hn h joint t
    obtain ⟨notes, u'', x'', s'', t'', hrest, h''⟩ := ih h' t'
    exact ⟨_, u'', x'', s'', t'', noteAll_cons htog hrest, h''⟩

omit hcap hpos hn in
theorem noteAll_opener {joints : List (RingJoint n)} {s' : Fin n → RingAccount n}
    {notes : Fin n → List (RingOpener.Note Ring128)} {t t' : Fin n → Tape}
    (h : World.Together capacity (fun i => (noteAll i joints).run (s i)) t
      (fun i => (notes i, s' i)) t') :
    World.Together capacity (fun i => (RingOpener.noteAll i joints).run (s i).opener) t
      (fun i => (notes i, (s' i).opener)) t' :=
  Forgets.together (fun i => noteAll_forgets i joints) h

theorem exchange_quiet (h : Joined u x s) (hdue : u.record.waiting < u.checkAfter)
    (t : Fin n → Tape) :
    ∃ s' : Fin n → RingAccount n, World.Together capacity
        (fun i => (RingJoint.exchange.account i).run.run (s i)) t (fun i => (.ok [], s' i)) t ∧
      Joined u.record x.exchange s' ∧
      ∀ i, (s' i).combined = (s i).combined ∧ (s' i).opener.masks = (s i).opener.masks := by
  obtain ⟨s', h', hkept, hrun⟩ := record_together hcap hpos hn h t
  have hquiet : ∀ i, ¬ (s' i).opener.base.checkAfter ≤ (s' i).opener.waiting := fun i => by
    rw [h'.abreast.alike.checkAfter i, RingOpener.waiting, h'.abreast.alike.waiting i]
    exact Nat.not_le.mpr hdue
  refine ⟨s', (hrun (.ok ()) s' t ?_).mapValue fun _ _ => [], h', hkept⟩
  refine Accord.bind_done (fun i => Action.run_get (s' i)) ?_
  simp only [hquiet, ↓reduceIte]
  exact Accord.pure _ _ t

omit hcap hpos hn in
theorem check_without_masks (heven : ∀ i, (s i).opener.Even)
    (hwaiting : ∀ i, (s i).opener.waiting ≠ 0) (hmasks : ∀ i, (s i).opener.masks = none)
    (t : Fin n → Tape) :
    ∃ s' : Fin n → RingAccount n, World.Together capacity
        (fun i => (RingJoint.check.account i).run.run (s i)) t
        (fun i => (.error .missingPreprocessing, s' i)) t ∧
      ∀ i, (s' i).opener.waiting = 0 ∧ (s' i).opener.masks = none ∧
        ((s i).opener, (s i).ledger) ∈ (s' i).combined := by
  have hfault : ∀ i, (s i).opener.fault? = some .missingPreprocessing := fun i => by
    simp [RingOpener.fault?, heven i, hmasks i]
  let o' : Fin n → RingOpener Ring128 := fun i =>
    { (s i).opener with base := (s i).opener.base.clearWaiting, waitingShares := [] }
  have htog : World.Together capacity
      (fun i => (RingOpener.check (Player.numbered i)).run.run (s i).take.opener) t
      (fun i => (.error .missingPreprocessing, o' i)) t := by
    simp only [opener_take,
      fun i => RingOpener.check_run_of_fault (hwaiting i) (hfault i) (Player.numbered i)]
    exact World.Together.pure _ t
  have hcheck : World.Together capacity
      (fun i => (check (Player.numbered i)).run.run (s i)) t
      (fun i => (.error .missingPreprocessing, { (s i).take with opener := o' i })) t :=
    Accord.thenDo (Accord.of_done (fun _ => rfl) t) htog.zoom
  refine ⟨fun i => { (s i).take with opener := o' i }, hcheck.mapValue fun _ _ => [],
    fun i => ⟨rfl, hmasks i, ?_⟩⟩
  show _ ∈ (s i).take.combined
  rw [take, if_neg (hwaiting i), if_pos (heven i)]
  exact List.mem_append_right _ (List.mem_singleton.mpr rfl)

omit hcap hpos hn in
theorem noteAll_nil (s : Fin n → RingAccount n) (t : Fin n → Tape) :
    World.Together capacity (fun i => (noteAll i []).run (s i)) t (fun i => ([], s i)) t :=
  World.Together.pure _ t

omit hcap hpos hn in
theorem prepare_together (s : Fin n → RingAccount n) (share : Fin n → Share Ring128)
    (t : Fin n → Tape) :
    World.Together capacity (fun i => ((RingJoint.prepare share).account i).run.run (s i)) t
      (fun i => (.ok [],
        ⟨(s i).opener.prepare (share i), (s i).ledger.prepare share, (s i).combined⟩)) t :=
  Accord.of_done (fun _ => rfl) t

omit hcap hpos hn in
theorem finish_together (s : Fin n → RingAccount n) (t : Fin n → Tape) :
    World.Together capacity (fun i => (RingJoint.finish.account i).run.run (s i)) t
      (fun i => (.ok (s i).opener.base.opened,
        ⟨(s i).opener.finish.2, (s i).ledger.finish, (s i).combined⟩)) t :=
  Accord.of_done (fun _ => rfl) t

variable (mode : ExchangeMode) (c : Config) (key : Fin n → Ring128) (t : Fin n → Tape)

/-- A share that is exchanged once is combined with itself. -/
theorem exchange_once_together (hdue : 1 < c.checkAfter) (a : Fin n → Share Ring128) :
    ∃ s : Fin n → RingAccount n, World.Together capacity
        (fun i => (noteAll i [.prepare a, .exchange, .check]).run (.new mode (key i) c)) t
        (fun i => ([(.ok [], 0, none), (.ok [], 1, none),
          (.error .missingPreprocessing, 0, none)], s i)) t ∧
      ∀ i, ∃ p ∈ (s i).combined, p.2.Balanced ∧ p.2.given = [.prepared a] ∧
        p.2.origins.base.waitingValues = [0] := by
  have h₀ := (Joined.new mode c key).prepare a
  obtain ⟨s₁, htog₁, h₁, hkept₁⟩ := exchange_quiet hcap hpos hn h₀ hdue t
  have hwaiting₁ : ∀ i, (s₁ i).opener.waiting = 1 := h₁.abreast.alike.waiting
  have hmasks₁ : ∀ i, (s₁ i).opener.masks = none := fun i => (hkept₁ i).2
  have heven : ∀ i, (s₁ i).opener.Even := fun i => (h₁.abreast.traces i).even_iff.mpr ⟨rfl, rfl⟩
  obtain ⟨s₂, htog₂, h₂⟩ := @check_without_masks n capacity s₁ heven
    (fun i => by rw [hwaiting₁]; decide) hmasks₁ t
  refine ⟨s₂, ?_, fun i => ⟨_, (h₂ i).2.2, ?_⟩⟩
  · have hrun := noteAll_cons (prepare_together _ a t)
      (noteAll_cons htog₁ (noteAll_cons htog₂ (noteAll_nil s₂ t)))
    simp only [hwaiting₁, hmasks₁, h₂] at hrun
    exact hrun
  · rw [h₁.ledger i]
    exact ⟨RingLedger.balanced_record.mpr ⟨fun _ h => absurd h List.not_mem_nil, rfl⟩, rfl, rfl⟩

/-- A batch that is finished before it is exchanged leaves an authentication and a share without a
value; another one that is exchanged twice leaves a value without them. Then the three lists have
one length again: the value of the second share is combined with the first share, and the check
goes on to ask for a mask. -/
theorem finish_early_together (hdue : 2 < c.checkAfter) (a b : Fin n → Share Ring128) :
    ∃ s : Fin n → RingAccount n, World.Together capacity
        (fun i => (noteAll i [.prepare a, .finish, .exchange, .prepare b, .exchange, .exchange,
          .check]).run (.new mode (key i) c)) t
        (fun i => ([(.ok [], 0, none), (.ok [(a i).value], 0, none), (.ok [], 1, none),
          (.ok [], 1, none), (.ok [], 2, none), (.ok [], 2, none),
          (.error .missingPreprocessing, 0, none)], s i)) t ∧
      ∀ i, ∃ p ∈ (s i).combined, p.1.Even ∧ p.2.given = [.prepared a, .prepared b] ∧
        p.2.origins.base.waitingValues = [1, 1] ∧ p.2.origins.waitingShares = [0, 1] ∧
        p.2.origins.base.waitingMacs = [0, 1] := by
  -- first a value is missing, then there is one too many
  have h₀ := ((Joined.new mode c key).prepare a).finish
  obtain ⟨s₁, htog₁, h₁, hkept₁⟩ := exchange_quiet hcap hpos hn h₀
    (show 1 < c.checkAfter by omega) t
  obtain ⟨s₂, htog₂, h₂, hkept₂⟩ := exchange_quiet hcap hpos hn (h₁.prepare b)
    (show 2 < c.checkAfter from hdue) t
  obtain ⟨s₃, htog₃, h₃, hkept₃⟩ := exchange_quiet hcap hpos hn h₂
    (show 2 < c.checkAfter from hdue) t
  have hwaiting₁ : ∀ i, (s₁ i).opener.waiting = 1 := h₁.abreast.alike.waiting
  have hwaiting₁' : ∀ i, ((s₁ i).opener.prepare (b i)).waiting = 1 :=
    (h₁.prepare b).abreast.alike.waiting
  have hwaiting₂ : ∀ i, (s₂ i).opener.waiting = 2 := h₂.abreast.alike.waiting
  have hwaiting₃ : ∀ i, (s₃ i).opener.waiting = 2 := h₃.abreast.alike.waiting
  have hmasks₁ : ∀ i, (s₁ i).opener.masks = none := fun i => (hkept₁ i).2
  have hmasks₁' : ∀ i, ((s₁ i).opener.prepare (b i)).masks = none := fun i => by
    rw [RingOpener.prepare_masks, hmasks₁]
  have hmasks₂ : ∀ i, (s₂ i).opener.masks = none := fun i => (hkept₂ i).2.trans (hmasks₁' i)
  have hmasks₃ : ∀ i, (s₃ i).opener.masks = none := fun i => (hkept₃ i).2.trans (hmasks₂ i)
  have heven : ∀ i, (s₃ i).opener.Even := fun i => (h₃.abreast.traces i).even_iff.mpr ⟨rfl, rfl⟩
  obtain ⟨s₄, htog₄, h₄⟩ := @check_without_masks n capacity s₃ heven
    (fun i => by rw [hwaiting₃]; decide) hmasks₃ t
  refine ⟨s₄, ?_, fun i => ⟨_, (h₄ i).2.2, heven i, ?_⟩⟩
  · have hrun := noteAll_cons (prepare_together _ a t) (noteAll_cons (finish_together _ t)
      (noteAll_cons htog₁ (noteAll_cons (prepare_together s₁ b t) (noteAll_cons htog₂
        (noteAll_cons htog₃ (noteAll_cons htog₄ (noteAll_nil s₄ t)))))))
    simp only [hwaiting₁, hwaiting₁', hwaiting₂, hwaiting₃, hmasks₁, hmasks₁', hmasks₂, hmasks₃,
      h₄] at hrun
    exact hrun
  · rw [h₃.ledger i]
    exact ⟨rfl, rfl, rfl, rfl⟩

end RingAccount

/-- What a check of player `i` combines: three lists of one length. A share and the authentication
at its position always stem from one share. The values stem from the same ones just if all
exchanges since the last check were balanced. -/
structure Pairs (i : Fin n) (o : RingOpener Ring128) (x : RingLedger n) : Prop where
  even : o.Even
  shares : x.Matches (fun g a => (g.share i).value = a) x.origins.waitingShares o.waitingShares
  macs : x.Matches (fun g a => (g.share i).mac = a) x.origins.base.waitingMacs o.base.waitingMacs
  same : x.origins.waitingShares = x.origins.base.waitingMacs
  values : o.base.waitingValues.length = x.origins.base.waitingValues.length
  aligned_iff : x.origins.base.waitingValues = x.origins.waitingShares ↔ x.Balanced

theorem Traces.pairs {i : Fin n} {o : RingOpener Ring128} {x : RingLedger n} (h : Traces i o x)
    (heven : o.Even) : Pairs i o x where
  even := heven
  shares := h.waitingShares
  macs := h.waitingMacs
  same := h.sound.waitingShares
  values := h.waitingValues
  aligned_iff := by
    rw [h.sound.waitingShares]
    exact h.sound.aligned_iff

/-- Every run has its ledger. Whatever the network does, a check never combines a share with the
authentication of another one, and it combines both with the value that stems from the same share
just if all exchanges since the last check were balanced. If all players move in lockstep, every
run ends, and then these values are the openings of their shares. There are as many players as
signed words can number. -/
theorem combined_pairs (hcap : capacity ≠ some 0) (hpos : 0 < n) (hn : 2 * n < wordRange)
    (mode : ExchangeMode) (c : Config) (key : Fin n → Ring128) (joints : List (RingJoint n)) :
    (∀ (i : Fin n) (notes : List (RingOpener.Note Ring128)) (o : RingOpener Ring128),
      ((RingOpener.noteAll i joints).run (.new mode (key i) c)).Returns (notes, o) →
        ∃ s, s.opener = o ∧
          ((RingAccount.noteAll i joints).run (.new mode (key i) c)).Returns (notes, s)) ∧
    (∀ (i : Fin n) (notes : List (RingOpener.Note Ring128)) (s : RingAccount n),
      ((RingAccount.noteAll i joints).run (.new mode (key i) c)).Returns (notes, s) →
        ∀ p ∈ s.combined, Pairs i p.1 p.2) ∧
    ∀ t : Fin n → Tape, ∃ (notes : Fin n → List (RingOpener.Note Ring128))
      (s : Fin n → RingAccount n) (t' : Fin n → Tape),
      World.EndsIn capacity
        (World.start (fun i => (RingOpener.noteAll i joints).run (.new mode (key i) c)) t .empty)
        (World.start (fun i => .done (notes i, (s i).opener)) t' .empty) ∧
      World.EndsIn capacity
        (World.start (fun i => (RingAccount.noteAll i joints).run (.new mode (key i) c)) t .empty)
        (World.start (fun i => .done (notes i, s i)) t' .empty) ∧
      ∀ i, ∀ p ∈ (s i).combined, Pairs i p.1 p.2 ∧ (p.2.Balanced →
        p.2.Matches (fun g a => g.opening = a) p.2.origins.base.waitingValues
          p.1.base.waitingValues) := by
  have hpairs : ∀ (i : Fin n) (notes : List (RingOpener.Note Ring128)) (s : RingAccount n),
      ((RingAccount.noteAll i joints).run (.new mode (key i) c)).Returns (notes, s) →
        ∀ p ∈ s.combined, Pairs i p.1 p.2 := fun i notes s hs p hp => by
    obtain ⟨heven, htraces⟩ :=
      ((RingAccount.Keeps.new i mode (key i) c).of_noteAll joints hs).combined p hp
    exact htraces.pairs heven
  refine ⟨fun i notes o h => ?_, hpairs, fun t => ?_⟩
  · exact (RingAccount.noteAll_forgets i joints).returns h
  · obtain ⟨notes, u, x, s, t', htog, h⟩ :=
      RingAccount.noteAll_together hcap hpos hn (.new mode c key) joints t
    exact ⟨notes, s, t', (RingAccount.noteAll_opener htog).endsIn, htog.endsIn, fun i p hp =>
      ⟨hpairs i _ _ (htog.returns i) p hp, h.combined i p hp⟩⟩

open RingOpener in
theorem combined_pairs_seven :
    ∃ s : Fin 2 → RingAccount 2, World.Together none
      (fun i => (RingAccount.noteAll i [.prepare seven.share, .exchange, .check]).run
        (.new .aggregated ⟨if i.val = 0 then 2 else 3⟩ .default)) (fun _ _ => zeroBytes)
      (fun i => ([(.ok [], 0, none), (.ok [], 1, none), (.error .missingPreprocessing, 0, none)],
        s i)) (fun _ _ => zeroBytes) ∧
      ∀ i, ∃ p ∈ (s i).combined, Pairs i p.1 p.2 ∧ p.2.given = [.prepared seven.share] ∧
        p.1.base.waitingValues = [⟨7⟩] := by
  have hcap : (none : Option Nat) ≠ some 0 := by simp
  obtain ⟨s, htog, hs⟩ := RingAccount.exchange_once_together hcap (by decide) (by decide)
    .aggregated .default (fun i : Fin 2 => ⟨if i.val = 0 then 2 else 3⟩)
    (fun _ _ => zeroBytes) (by decide) seven.share
  obtain ⟨-, -, hlockstep⟩ := combined_pairs hcap (by decide) (by decide) .aggregated .default
    (fun i : Fin 2 => ⟨if i.val = 0 then 2 else 3⟩) [.prepare seven.share, .exchange, .check]
  obtain ⟨notes, s', t', -, hend, hpairs⟩ := hlockstep fun _ _ => zeroBytes
  refine ⟨s, htog, fun i => ?_⟩
  obtain ⟨p, hp, hbalanced, hgiven, horigins⟩ := hs i
  have hsame : s i = s' i := (Prod.ext_iff.mp (congrFun (htog.values_eq hend) i)).2
  obtain ⟨hpair, hopenings⟩ := hpairs i p (hsame ▸ hp)
  refine ⟨p, hp, hpair, hgiven, ?_⟩
  have hmatches := hopenings hbalanced
  rw [horigins] at hmatches
  obtain ⟨v, rest, ⟨g, hg, rfl⟩, hrest, hv⟩ := List.forall₂_cons_left_iff.mp hmatches
  obtain rfl := List.forall₂_nil_left_iff.mp hrest
  rw [hgiven] at hg
  obtain rfl : Given.prepared seven.share = g := Option.some.inj hg
  rw [hv]
  decide

namespace RingOpener

def finishEarly : List (RingJoint 2) :=
  [.prepare seven.share, .finish, .exchange, .prepare eleven.share, .exchange, .exchange, .check]

def finishEarlyNotes (i : Fin 2) : List (Note Ring128) :=
  [(.ok [], 0, none), (.ok [(seven.share i).value], 0, none), (.ok [], 1, none), (.ok [], 1, none),
    (.ok [], 2, none), (.ok [], 2, none), (.error .missingPreprocessing, 0, none)]

/-- What is opened of eleven is combined with the share of seven. -/
theorem finish_early_mispairs :
    ∃ s : Fin 2 → RingAccount 2,
      World.EndsIn none
        (World.start (fun i => (noteAll i finishEarly).run
          (new .aggregated ⟨if i.val = 0 then 2 else 3⟩ .default)) (fun _ _ => zeroBytes) .empty)
        (World.start (fun i => .done (finishEarlyNotes i, (s i).opener)) (fun _ _ => zeroBytes)
          .empty) ∧
      World.EndsIn none
        (World.start (fun i => (RingAccount.noteAll i finishEarly).run
          (.new .aggregated ⟨if i.val = 0 then 2 else 3⟩ .default)) (fun _ _ => zeroBytes) .empty)
        (World.start (fun i => .done (finishEarlyNotes i, s i)) (fun _ _ => zeroBytes) .empty) ∧
      ∀ i, ∃ p ∈ (s i).combined, p.1.Even ∧
        p.2.given = [.prepared seven.share, .prepared eleven.share] ∧
        p.2.origins.base.waitingValues = [1, 1] ∧ p.2.origins.waitingShares = [0, 1] ∧
        p.2.origins.base.waitingMacs = [0, 1] := by
  have hcap : (none : Option Nat) ≠ some 0 := by simp
  obtain ⟨s, htog, hs⟩ := RingAccount.finish_early_together hcap (by decide) (by decide)
    .aggregated .default (fun i : Fin 2 => ⟨if i.val = 0 then 2 else 3⟩)
    (fun _ _ => zeroBytes) (by decide) seven.share eleven.share
  exact ⟨s, (RingAccount.noteAll_opener htog).endsIn, htog.endsIn, hs⟩

end RingOpener

end AuthShares
