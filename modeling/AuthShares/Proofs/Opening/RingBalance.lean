import AuthShares.Proofs.Opening.RingResults
import Mathlib.Data.List.Forall2

/-!
# What a check over the ring combines

The lists of a ledger fit together whatever is done. Shares and authentications always have one
order. That of the values agrees with it just as long as all exchanges are balanced: the first one
that is not puts a share into one of the lists at a position where it will never be in the other.
All this holds of the opener too, whatever the network reports.
-/

set_option autoImplicit false

namespace AuthShares

variable {n : Nat}

namespace RingLedger

variable {x y : RingLedger n} {P : Given n → Ring128 → Prop} {es es' : List Nat}
  {ys ys' : List Ring128}

/-- All exchanges since the last check have put as many values in wait as authentications. -/
def Balanced (x : RingLedger n) : Prop := ∀ b ∈ x.batches, b.1 = b.2

def Matches (x : RingLedger n) (P : Given n → Ring128 → Prop) : List Nat → List Ring128 → Prop :=
  List.Forall₂ fun e a => ∃ g, x.given[e]? = some g ∧ P g a

namespace Matches

theorem mono (h : x.Matches P es ys) (hxy : x.given <+: y.given) : y.Matches P es ys := by
  refine List.Forall₂.imp (fun e a => ?_) h
  rintro ⟨g, hg, ha⟩
  obtain ⟨rest, hrest⟩ := hxy
  refine ⟨g, ?_, ha⟩
  rw [← hrest, List.getElem?_append_left (List.getElem?_eq_some_iff.mp hg).1]
  exact hg

theorem concat (h : x.Matches P es ys) {g : Given n} (hy : y.given = x.given ++ [g])
    {a : Ring128} (ha : P g a) : y.Matches P (es ++ [x.given.length]) (ys ++ [a]) := by
  refine List.rel_append (h.mono ⟨[g], hy.symm⟩) (.cons ⟨g, ?_, ha⟩ .nil)
  simp [hy]

theorem append (h : x.Matches P es ys) (h' : x.Matches P es' ys') :
    x.Matches P (es ++ es') (ys ++ ys') := List.rel_append h h'

end Matches

/-- At position `k` of the first list is the share `e`. At this position of the second list it
is not, nor will it get there with what comes later. -/
structure Stray (e k : Nat) (xs ys later : List Nat) : Prop where
  is_here : xs[k]? = some e
  not_there : ys[k]? ≠ some e
  not_later : e ∉ later

theorem Stray.extend {e k : Nat} {xs ys later later' : List Nat} (h : Stray e k xs ys later)
    (as : List Nat) {bs : List Nat} (hbs : e ∈ bs → e ∈ later) (hlater : e ∈ later' → e ∈ later) :
    Stray e k (xs ++ as) (ys ++ bs) later' where
  is_here := by
    rw [List.getElem?_append_left (List.getElem?_eq_some_iff.mp h.is_here).1]
    exact h.is_here
  not_there he := by
    rw [List.getElem?_append] at he
    split at he
    · exact h.not_there he
    · exact h.not_later (hbs (List.mem_of_getElem? he))
  not_later he := h.not_later (hlater he)

def Apart (x : RingLedger n) : Prop :=
  ∃ e k, e < x.given.length ∧
    (Stray e k x.origins.base.waitingValues x.origins.base.waitingMacs
        x.origins.base.pendingMacs ∨
      Stray e k x.origins.base.waitingMacs x.origins.base.waitingValues x.origins.base.opened)

theorem Apart.extend (h : x.Apart) {as bs : List Nat}
    (hgiven : x.given.length ≤ y.given.length)
    (hvalues : y.origins.base.waitingValues = x.origins.base.waitingValues ++ as)
    (hmacs : y.origins.base.waitingMacs = x.origins.base.waitingMacs ++ bs)
    (has : ∀ e ∈ as, e < x.given.length → e ∈ x.origins.base.opened)
    (hopened : ∀ e ∈ y.origins.base.opened, e < x.given.length → e ∈ x.origins.base.opened)
    (hbs : ∀ e ∈ bs, e < x.given.length → e ∈ x.origins.base.pendingMacs)
    (hpending : ∀ e ∈ y.origins.base.pendingMacs, e < x.given.length →
      e ∈ x.origins.base.pendingMacs) : y.Apart := by
  obtain ⟨e, k, he, hstray⟩ := h
  refine ⟨e, k, he.trans_le hgiven, ?_⟩
  rw [hvalues, hmacs]
  exact hstray.imp (fun h => h.extend as (fun hb => hbs e hb he) fun hp => hpending e hp he)
    fun h => h.extend bs (fun ha => has e ha he) fun ho => hopened e ho he

def exchange (x : RingLedger n) : RingLedger n :=
  x.record x.origins.base.opened.length x.origins.base.pendingMacs.length

theorem balanced_record {values macs : Nat} :
    (x.record values macs).Balanced ↔ x.Balanced ∧ values = macs := by
  simp [Balanced, record, or_imp, forall_and]

def Orderly (x : RingLedger n) : Prop :=
  x.Balanced ∧ x.origins.base.waitingValues = x.origins.base.waitingMacs ∨ ¬ x.Balanced ∧ x.Apart

theorem Orderly.extend (h : x.Orderly) {es : List Nat} (hbatches : y.batches = x.batches)
    (hgiven : x.given.length ≤ y.given.length)
    (hvalues : y.origins.base.waitingValues = x.origins.base.waitingValues ++ es)
    (hmacs : y.origins.base.waitingMacs = x.origins.base.waitingMacs ++ es)
    (hes : ∀ e ∈ es, x.given.length ≤ e)
    (hopened : ∀ e ∈ y.origins.base.opened, e < x.given.length → e ∈ x.origins.base.opened)
    (hpending : ∀ e ∈ y.origins.base.pendingMacs, e < x.given.length →
      e ∈ x.origins.base.pendingMacs) : y.Orderly := by
  have hnew : ∀ {s : List Nat}, ∀ e ∈ es, e < x.given.length → e ∈ s := fun e he hlt =>
    absurd hlt (hes e he).not_gt
  have hbalanced : y.Balanced ↔ x.Balanced := by
    rw [Balanced, hbatches]
    exact Iff.rfl
  rw [Orderly, hbalanced]
  refine h.imp (fun ⟨hb, heq⟩ => ⟨hb, ?_⟩) fun ⟨hb, hapart⟩ => ⟨hb, ?_⟩
  · rw [hvalues, hmacs, heq]
  · exact hapart.extend hgiven hvalues hmacs hnew hopened hnew hpending

structure Sound (x : RingLedger n) : Prop where
  pendingShares : x.origins.pendingShares = x.origins.base.pendingMacs
  waitingShares : x.origins.waitingShares = x.origins.base.waitingMacs
  opened_lt : ∀ e ∈ x.origins.base.opened, e < x.given.length
  pendingMacs_lt : ∀ e ∈ x.origins.base.pendingMacs, e < x.given.length
  collected : x.origins.base.phase = .accumulating →
    x.origins.base.opened = x.origins.base.pendingMacs
  shown : x.origins.base.phase = .exchanged → x.origins.base.pendingMacs = []
  idle : x.origins.base.phase = .idle → x.origins.base.opened = []
  orderly : x.Orderly

theorem prepare_start (h : ¬ x.origins.base.phase = .accumulating)
    (share : Fin n → Share Ring128) : x.prepare share = x.start.prepare share := by
  rw [prepare, prepare, if_neg h]
  rfl

theorem prepare_collects (h : x.origins.base.phase = .accumulating)
    (share : Fin n → Share Ring128) :
    x.prepare share = { x with
      given := x.given ++ [.prepared share]
      origins := { x.origins with
        base := { x.origins.base with
          opened := x.origins.base.opened ++ [x.given.length]
          lengths := x.origins.base.lengths ++ [none]
          pendingMacs := x.origins.base.pendingMacs ++ [x.given.length] }
        pendingShares := x.origins.pendingShares ++ [x.given.length] } } := by
  rw [prepare, if_pos h, Opener.prepare_eq_append h]

namespace Sound

theorem new : Sound (new : RingLedger n) where
  pendingShares := rfl
  waitingShares := rfl
  opened_lt _ h := by cases h
  pendingMacs_lt _ h := by cases h
  collected _ := rfl
  shown _ := rfl
  idle _ := rfl
  orderly := .inl ⟨fun _ h => (by cases h), rfl⟩

/-- The two lists agree just if all exchanges were balanced. -/
theorem aligned_iff (h : x.Sound) :
    x.origins.base.waitingValues = x.origins.base.waitingMacs ↔ x.Balanced := by
  obtain ⟨hb, heq⟩ | ⟨hb, e, k, -, h | h⟩ := h.orderly
  · exact iff_of_true heq hb
  · exact iff_of_false (fun heq => h.not_there (heq ▸ h.is_here)) hb
  · exact iff_of_false (fun heq => h.not_there (heq ▸ h.is_here)) hb

theorem start (h : x.Sound) : x.start.Sound where
  pendingShares := rfl
  waitingShares := h.waitingShares
  opened_lt _ h := by cases h
  pendingMacs_lt _ h := by cases h
  collected _ := rfl
  shown h := by cases h
  idle h := by cases h
  orderly := h.orderly.extend rfl le_rfl (List.append_nil _).symm (List.append_nil _).symm
    (fun _ h => absurd h List.not_mem_nil) (fun _ h => absurd h List.not_mem_nil)
    fun _ h => absurd h List.not_mem_nil

theorem discard (h : x.Sound) : x.discard.Sound where
  pendingShares := rfl
  waitingShares := h.waitingShares
  opened_lt _ h := by cases h
  pendingMacs_lt _ h := by cases h
  collected _ := rfl
  shown _ := rfl
  idle _ := rfl
  orderly := h.start.orderly

theorem finish (h : x.Sound) : x.finish.Sound where
  pendingShares := h.pendingShares
  waitingShares := h.waitingShares
  opened_lt _ h := by cases h
  pendingMacs_lt := h.pendingMacs_lt
  collected h := by cases h
  shown h := by cases h
  idle _ := rfl
  orderly := h.orderly.extend rfl le_rfl (List.append_nil _).symm (List.append_nil _).symm
    (fun _ h => absurd h List.not_mem_nil) (fun _ h => absurd h List.not_mem_nil) fun _ h _ => h

theorem clear (h : x.Sound) : x.clear.Sound where
  pendingShares := h.pendingShares
  waitingShares := rfl
  opened_lt := h.opened_lt
  pendingMacs_lt := h.pendingMacs_lt
  collected := h.collected
  shown := h.shown
  idle := h.idle
  orderly := .inl ⟨fun _ h => absurd h List.not_mem_nil, rfl⟩

theorem prepare (h : x.Sound) (share : Fin n → Share Ring128) : (x.prepare share).Sound := by
  suffices hcollects : ∀ {x : RingLedger n}, x.Sound → x.origins.base.phase = .accumulating →
      (x.prepare share).Sound by
    by_cases hp : x.origins.base.phase = .accumulating
    · exact hcollects h hp
    · rw [prepare_start hp]
      exact hcollects h.start rfl
  intro x h hp
  have hlt : ∀ {es : List Nat}, (∀ e ∈ es, e < x.given.length) →
      ∀ e ∈ es ++ [x.given.length], e < (x.given ++ [Given.prepared share]).length := by
    intro es hes
    refine List.forall_mem_append.mpr ⟨fun e he => ?_, ?_⟩
    · exact (hes e he).trans (by simp)
    · simp
  have hold : ∀ {es : List Nat}, ∀ e ∈ es ++ [x.given.length], e < x.given.length → e ∈ es := by
    intro es e he hlt
    exact (List.mem_append.mp he).resolve_right fun he' =>
      absurd (List.mem_singleton.mp he') hlt.ne
  rw [prepare_collects hp]
  exact
    { pendingShares := congrArg (· ++ _) h.pendingShares
      waitingShares := h.waitingShares
      opened_lt := hlt h.opened_lt
      pendingMacs_lt := hlt h.pendingMacs_lt
      collected := fun _ => congrArg (· ++ _) (h.collected hp)
      shown := fun hs => by cases hp.symm.trans hs
      idle := fun hi => by cases hp.symm.trans hi
      orderly := h.orderly.extend rfl (by simp) (List.append_nil _).symm
        (List.append_nil _).symm (fun _ h => absurd h List.not_mem_nil) hold hold }

theorem addWaiting (h : x.Sound) (share : Fin n → Share Ring128) (opened : Ring128) :
    (x.addWaiting share opened).Sound where
  pendingShares := h.pendingShares
  waitingShares := congrArg (· ++ _) h.waitingShares
  opened_lt e he := (h.opened_lt e he).trans (by simp [RingLedger.addWaiting])
  pendingMacs_lt e he := (h.pendingMacs_lt e he).trans (by simp [RingLedger.addWaiting])
  collected := h.collected
  shown := h.shown
  idle := h.idle
  orderly := h.orderly.extend rfl (by simp [RingLedger.addWaiting]) rfl rfl
    (fun _ he => (List.mem_singleton.mp he).ge) (fun _ he _ => he) fun _ he _ => he

/-- An exchange that is not balanced puts in wait only values or only authentications. -/
theorem apart_of_record (h : x.Sound)
    (heq : x.origins.base.waitingValues = x.origins.base.waitingMacs)
    (hne : x.origins.base.opened.length ≠ x.origins.base.pendingMacs.length)
    (values macs : Nat) : (x.record values macs).Apart := by
  cases hp : x.origins.base.phase with
  | accumulating => exact absurd (congrArg List.length (h.collected hp)) hne
  | exchanged =>
    -- the authentications have gone into wait before
    have hnil : x.origins.base.pendingMacs = [] := h.shown hp
    cases hopened : x.origins.base.opened with
    | nil => exact absurd (by rw [hopened, hnil]) hne
    | cons e es =>
      refine ⟨e, x.origins.base.waitingValues.length, h.opened_lt e (by simp [hopened]), .inl ?_⟩
      refine ⟨?_, ?_, List.not_mem_nil⟩
      · simp [RingLedger.record, Opener.record, hopened]
      · simp [RingLedger.record, Opener.record, hnil, heq]
  | idle =>
    -- the values have been handed out before
    have hnil : x.origins.base.opened = [] := h.idle hp
    cases hpending : x.origins.base.pendingMacs with
    | nil => exact absurd (by rw [hpending, hnil]) hne
    | cons e es =>
      refine ⟨e, x.origins.base.waitingMacs.length, h.pendingMacs_lt e (by simp [hpending]),
        .inr ?_⟩
      refine ⟨?_, ?_, ?_⟩
      · simp [RingLedger.record, Opener.record, hpending]
      · simp [RingLedger.record, Opener.record, hnil, heq]
      · simp [RingLedger.record, Opener.record, hnil]

theorem exchange (h : x.Sound) : x.exchange.Sound where
  pendingShares := rfl
  waitingShares := by
    simp [RingLedger.exchange, RingLedger.record, Opener.record, h.waitingShares, h.pendingShares]
  opened_lt := h.opened_lt
  pendingMacs_lt _ h := absurd h List.not_mem_nil
  collected h := by cases h
  shown _ := rfl
  idle h := by cases h
  orderly := by
    rw [Orderly, RingLedger.exchange, balanced_record]
    obtain ⟨hb, heq⟩ | ⟨hb, hapart⟩ := h.orderly
    · by_cases hlen : x.origins.base.opened.length = x.origins.base.pendingMacs.length
      · refine .inl ⟨⟨hb, hlen⟩, ?_⟩
        -- one list is empty unless the batch has just been collected, so the other one is too
        have hlists : x.origins.base.opened = x.origins.base.pendingMacs := by
          cases hp : x.origins.base.phase with
          | accumulating => exact h.collected hp
          | exchanged =>
            rw [h.shown hp] at hlen ⊢
            exact List.length_eq_zero_iff.mp hlen
          | idle =>
            rw [h.idle hp] at hlen ⊢
            exact (List.length_eq_zero_iff.mp hlen.symm).symm
        simp [RingLedger.record, Opener.record, heq, hlists]
      · exact .inr ⟨fun h => hlen h.2, h.apart_of_record heq hlen _ _⟩
    · exact .inr ⟨fun h => hb h.1, hapart.extend le_rfl rfl rfl (fun _ he _ => he)
        (fun _ he _ => he) (fun _ he _ => he) fun _ he => absurd he List.not_mem_nil⟩

end Sound

end RingLedger

def RingOpener.Spends (o o' : RingOpener Ring128) : Prop :=
  if o.waiting = 0 then o' = o
  else ∃ masks packed, o' = { o with
    base := { o.base.clearWaiting with aggregator := { o.base.aggregator with packed } }
    masks
    waitingShares := [] }

structure Traces (i : Fin n) (o : RingOpener Ring128) (x : RingLedger n) : Prop where
  sound : x.Sound
  phase : o.base.phase = x.origins.base.phase
  opened : o.base.opened.length = x.origins.base.opened.length
  pendingMacs : x.Matches (fun g a => (g.share i).mac = a) x.origins.base.pendingMacs
    o.base.pendingMacs
  pendingShares : x.Matches (fun g a => (g.share i).value = a) x.origins.pendingShares
    o.pendingShares
  waitingValues : o.base.waitingValues.length = x.origins.base.waitingValues.length
  waitingMacs : x.Matches (fun g a => (g.share i).mac = a) x.origins.base.waitingMacs
    o.base.waitingMacs
  waitingShares : x.Matches (fun g a => (g.share i).value = a) x.origins.waitingShares
    o.waitingShares
  collected : o.base.phase = .accumulating →
    x.Matches (fun g a => ∃ share, g = .prepared share ∧ (share i).value = a)
      x.origins.base.opened o.base.opened

namespace Traces

variable {i : Fin n} {o o' : RingOpener Ring128} {x : RingLedger n}

theorem new (mode : ExchangeMode) (keyShare : Ring128) (c : Config) :
    Traces i (.new mode keyShare c) (.new : RingLedger n) :=
  ⟨.new, rfl, rfl, .nil, .nil, rfl, .nil, .nil, fun _ => .nil⟩

theorem setMasks (h : Traces i o x) (masks : List (Share Ring128)) :
    Traces i (o.setMasks masks) x :=
  ⟨h.sound, h.phase, h.opened, h.pendingMacs, h.pendingShares, h.waitingValues, h.waitingMacs,
    h.waitingShares, h.collected⟩

theorem start (h : Traces i o x) : Traces i o.start x.start :=
  ⟨h.sound.start, rfl, rfl, .nil, .nil, h.waitingValues, h.waitingMacs, h.waitingShares,
    fun _ => .nil⟩

theorem prepare (h : Traces i o x) (share : Fin n → Share Ring128) :
    Traces i (o.prepare (share i)) (x.prepare share) := by
  suffices hcollects : ∀ {o : RingOpener Ring128} {x : RingLedger n}, Traces i o x →
      o.base.phase = .accumulating → Traces i (o.prepare (share i)) (x.prepare share) by
    by_cases hp : o.base.phase = .accumulating
    · exact hcollects h hp
    · rw [RingOpener.prepare_start hp, RingLedger.prepare_start (h.phase ▸ hp)]
      exact hcollects h.start rfl
  intro o x h hp
  have hx : x.origins.base.phase = .accumulating := h.phase.symm.trans hp
  have hsound := h.sound.prepare share
  rw [RingLedger.prepare_collects hx] at hsound ⊢
  rw [RingOpener.prepare_collects hp]
  exact
    { sound := hsound
      phase := h.phase
      opened := by simp [h.opened]
      pendingMacs := h.pendingMacs.concat rfl rfl
      pendingShares := h.pendingShares.concat rfl rfl
      waitingValues := h.waitingValues
      waitingMacs := h.waitingMacs.mono ⟨[_], rfl⟩
      waitingShares := h.waitingShares.mono ⟨[_], rfl⟩
      collected := fun _ => (h.collected hp).concat rfl ⟨share, rfl, rfl⟩ }

theorem prepareAll (h : Traces i o x) (shares : List (Fin n → Share Ring128)) :
    Traces i ((shares.map (· i)).foldl RingOpener.prepare o)
      (shares.foldl RingLedger.prepare x) := by
  induction shares generalizing o x with
  | nil => exact h
  | cons share rest ih => exact ih (h.prepare share)

theorem discard (h : Traces i o x) (aggregator : Aggregator) :
    Traces i { o with base := { o.base with aggregator }.clear .idle, pendingShares := [] }
      x.discard :=
  ⟨h.sound.discard, rfl, rfl, .nil, .nil, h.waitingValues, h.waitingMacs, h.waitingShares,
    fun h => by cases h⟩

theorem record (h : Traces i o x) {opened : List Ring128}
    (hlen : opened.length = o.base.opened.length) (aggregator : Aggregator) :
    Traces i (RingOpener.record { o with base := { o.base with opened, aggregator } })
      (x.record opened.length o.base.pendingMacs.length) where
  sound := by
    rw [hlen, h.opened, ← h.pendingMacs.length_eq]
    exact h.sound.exchange
  phase := rfl
  opened := by simpa [RingOpener.record, Opener.record, RingLedger.record] using hlen.trans h.opened
  pendingMacs := .nil
  pendingShares := .nil
  waitingValues := by
    simp [RingOpener.record, Opener.record, RingLedger.record, h.waitingValues, hlen, h.opened]
  waitingMacs := h.waitingMacs.append h.pendingMacs
  waitingShares := h.waitingShares.append h.pendingShares
  collected h := by cases h

theorem finish (h : Traces i o x) : Traces i o.finish.2 x.finish :=
  ⟨h.sound.finish, rfl, rfl, h.pendingMacs, h.pendingShares, h.waitingValues, h.waitingMacs,
    h.waitingShares, fun h => by cases h⟩

theorem addWaiting (h : Traces i o x) (share : Fin n → Share Ring128) (opened : Ring128) :
    Traces i { o with
      base := o.base.addWaiting (share i).mac (RingElement.low opened)
      waitingShares := o.waitingShares ++ [(share i).value] } (x.addWaiting share opened) where
  sound := h.sound.addWaiting share opened
  phase := h.phase
  opened := h.opened
  pendingMacs := h.pendingMacs.mono ⟨[_], rfl⟩
  pendingShares := h.pendingShares.mono ⟨[_], rfl⟩
  waitingValues := by simp [Opener.addWaiting, RingLedger.addWaiting, h.waitingValues]
  waitingMacs := h.waitingMacs.concat rfl rfl
  waitingShares := h.waitingShares.concat rfl rfl
  collected hp := (h.collected hp).mono ⟨[_], rfl⟩

theorem spend (h : Traces i o x) (hspends : o.Spends o') :
    Traces i o' (if o.waiting = 0 then x else x.clear) := by
  unfold RingOpener.Spends at hspends
  by_cases hzero : o.waiting = 0
  · rw [if_pos hzero] at hspends ⊢
    rw [hspends]
    exact h
  · rw [if_neg hzero] at hspends ⊢
    obtain ⟨masks, packed, rfl⟩ := hspends
    exact ⟨h.sound.clear, h.phase, h.opened, h.pendingMacs, h.pendingShares, rfl, .nil, .nil,
      h.collected⟩

end Traces

theorem RingOpener.spends_of_check {player : Player} {o o' : RingOpener Ring128}
    {r : Except Error Unit} (h : (check player).Ends o r o') : o.Spends o' := by
  unfold Spends
  by_cases hzero : o.waiting = 0
  · rw [if_pos hzero]
    exact check_ends_of_waiting_eq_zero hzero h
  · rw [if_neg hzero]
    obtain ⟨packed, rfl⟩ := check_ends h
    unfold checked
    rw [if_neg hzero]
    split
    · exact ⟨_, packed, rfl⟩
    · exact ⟨_, packed, rfl⟩

namespace RingAccount

variable {i : Fin n} {s s' : RingAccount n} {r : Except Error Unit} {player : Player}

structure Keeps (i : Fin n) (s : RingAccount n) : Prop where
  traces : Traces i s.opener s.ledger
  combined : ∀ p ∈ s.combined, p.1.Even ∧ Traces i p.1 p.2

theorem Keeps.new (i : Fin n) (mode : ExchangeMode) (keyShare : Ring128) (c : Config) :
    Keeps i (new mode keyShare c) :=
  ⟨.new mode keyShare c, fun _ h => absurd h List.not_mem_nil⟩

theorem take_ledger (s : RingAccount n) :
    s.take.ledger = if s.opener.waiting = 0 then s.ledger else s.ledger.clear := by
  unfold take
  split <;> rfl

theorem mem_take_combined {p : RingOpener Ring128 × RingLedger n} (h : p ∈ s.take.combined) :
    p ∈ s.combined ∨ s.opener.Even ∧ p = (s.opener, s.ledger) := by
  unfold take at h
  split at h
  · exact .inl h
  · by_cases heven : s.opener.Even
    · simp only [heven, ↓reduceIte] at h
      exact (List.mem_append.mp h).imp_right fun h => ⟨heven, List.mem_singleton.mp h⟩
    · simp only [heven, ↓reduceIte] at h
      exact .inl h

theorem exchangeShares_yields {a : Unit} (h : (exchangeShares player).Yields s a s') :
    ∃ opened aggregator, opened.length = s.opener.base.opened.length ∧ s' = { s with
      opener := { s.opener with base := { s.opener.base with opened, aggregator } } } := by
  obtain ⟨⟨r', u⟩, hact, h⟩ := (Protocol.returns_bind
    ((act (RingOpener.exchangeShares player)).run.run s) _ _).mp h
  obtain ⟨o', hends, rfl⟩ := Action.ends_zoom hact
  obtain ⟨opened, packed, rfl, hlen, rfl⟩ | ⟨e, packed, rfl, -⟩ :=
    RingOpener.exchangeShares_ends hends
  · cases h
    exact ⟨opened, _, hlen, rfl⟩
  · cases h

theorem exchangeShares_fails {e : Error} (h : (exchangeShares player).Ends s (.error e) s') :
    ∃ aggregator, s' = { s with
      opener := { s.opener with
        base := { s.opener.base with aggregator }.clear .idle, pendingShares := [] }
      ledger := s.ledger.discard } := by
  obtain ⟨⟨r', u⟩, hact, h⟩ := (Protocol.returns_bind
    ((act (RingOpener.exchangeShares player)).run.run s) _ _).mp h
  obtain ⟨o', hends, rfl⟩ := Action.ends_zoom hact
  obtain ⟨opened, packed, rfl, -, rfl⟩ | ⟨e, packed, rfl, rfl⟩ :=
    RingOpener.exchangeShares_ends hends
  · cases h
  · cases h
    exact ⟨_, rfl⟩

namespace Keeps

theorem spend (h : Keeps i s) {o' : RingOpener Ring128} (hspends : s.opener.Spends o') :
    Keeps i { s.take with opener := o' } where
  traces := by
    rw [take_ledger]
    exact h.traces.spend hspends
  combined p hp := by
    obtain hp | ⟨heven, rfl⟩ := mem_take_combined hp
    · exact h.combined p hp
    · exact ⟨heven, h.traces⟩

theorem of_check (h : Keeps i s) (hends : (check player).Ends s r s') : Keeps i s' := by
  obtain ⟨o', hcheck, rfl⟩ := Action.ends_zoom (Action.ends_modify_bind.mp hends)
  rw [opener_take] at hcheck
  exact h.spend (RingOpener.spends_of_check hcheck)

theorem of_checkIfDue (h : Keeps i s) (hends : (checkIfDue player).Ends s r s') :
    Keeps i s' := by
  replace hends := Action.ends_get_bind.mp hends
  split at hends
  · exact h.of_check hends
  · cases hends
    exact h

theorem of_exchange (h : Keeps i s) (hends : (exchange player).Ends s r s') : Keeps i s' := by
  obtain ⟨_, u, hshares, hends⟩ | ⟨e, hshares, -⟩ := Action.ends_bind.mp hends
  · obtain ⟨opened, aggregator, hlen, rfl⟩ := exchangeShares_yields hshares
    have hrecord : Keeps i ⟨_, _, s.combined⟩ :=
      ⟨h.traces.record hlen aggregator, h.combined⟩
    exact hrecord.of_checkIfDue hends
  · obtain ⟨aggregator, rfl⟩ := exchangeShares_fails hshares
    exact ⟨h.traces.discard aggregator, h.combined⟩

theorem of_takeOpened (h : Keeps i s) {r : Except Error (List Ring128)}
    (hends : takeOpened.Ends s r s') : Keeps i s' := by
  cases hends
  exact ⟨h.traces.finish, h.combined⟩

theorem of_openAll (h : Keeps i s) {shares : List (Fin n → Share Ring128)}
    {r : Except Error (List Ring128)} (hends : (openAll i shares).Ends s r s') : Keeps i s' := by
  have hbatch : Keeps i ⟨(shares.map (· i)).foldl RingOpener.prepare s.opener.start,
      shares.foldl RingLedger.prepare s.ledger.start, s.combined⟩ :=
    ⟨h.traces.start.prepareAll shares, h.combined⟩
  obtain ⟨_, u, hexchange, hends⟩ | ⟨e, hexchange, -⟩ := Action.ends_bind.mp
    (show (exchange (Player.numbered i) >>= fun _ => takeOpened).Ends _ r s' from hends)
  · exact (hbatch.of_exchange hexchange).of_takeOpened hends
  · exact hbatch.of_exchange hexchange

theorem of_joint (h : Keeps i s) {joint : RingJoint n} {r : Except Error (List Ring128)}
    (hends : (joint.account i).Ends s r s') : Keeps i s' := by
  cases joint with
  | setMasks masks =>
    cases hends
    exact ⟨h.traces.setMasks _, h.combined⟩
  | start count room =>
    cases hends
    have hstart := h.traces.start
    rw [← RingOpener.startFor_eq _ room] at hstart
    exact ⟨hstart, h.combined⟩
  | prepare share =>
    cases hends
    exact ⟨h.traces.prepare share, h.combined⟩
  | exchange =>
    obtain ⟨r', hexchange, -⟩ := Action.ends_bind_pure.mp hends
    exact h.of_exchange hexchange
  | finish => exact h.of_takeOpened hends
  | openAll shares => exact h.of_openAll hends
  | addToCheck share opened =>
    obtain ⟨r', hadd, -⟩ := Action.ends_bind_pure.mp hends
    have hwait : Keeps i ⟨_, _, s.combined⟩ := ⟨h.traces.addWaiting share opened, h.combined⟩
    exact hwait.of_checkIfDue hadd
  | check =>
    obtain ⟨r', hcheck, -⟩ := Action.ends_bind_pure.mp hends
    exact h.of_check hcheck

theorem of_noteAll (h : Keeps i s) (joints : List (RingJoint n))
    {notes : List (RingOpener.Note Ring128)}
    (hr : ((noteAll i joints).run s).Returns (notes, s')) : Keeps i s' := by
  induction joints generalizing s notes with
  | nil =>
    cases hr
    exact h
  | cons joint rest ih =>
    obtain ⟨⟨r, u⟩, hjoint, hr⟩ :=
      (Protocol.returns_bind ((joint.account i).run.run s) _ _).mp hr
    obtain ⟨⟨notes', v⟩, hrest, hr⟩ :=
      (Protocol.returns_bind ((noteAll i rest).run u) _ _).mp hr
    cases hr
    exact ih (h.of_joint hjoint) hrest

end Keeps

end RingAccount

end AuthShares
