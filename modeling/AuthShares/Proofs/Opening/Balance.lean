import AuthShares.Proofs.Opening.Ledger
import AuthShares.Proofs.Opening.Results
import Mathlib.Data.List.Forall2

/-!
# When nothing escapes the check

An exchange is balanced if it puts as many values in wait of a check as authentications.
As long as all exchanges are, values and authentications wait in the same order, and every
value is checked once, with the authentication of its own share. An exchange that is not
balanced puts the two lists out of step; no operation notices.
-/

set_option autoImplicit false

namespace AuthShares

variable {T : Type}

namespace Ledger

/-- All exchanges put as many values in wait as authentications. -/
def Balanced (x : Ledger T) : Prop := ∀ b ∈ x.batches, b.1 = b.2

/-- At every moment values and authentications of the same shares waited, in the same order. -/
def Level (x : Ledger T) : Prop := ∀ p ∈ x.moments, p.1 = p.2

theorem level_move (x : Ledger T) (origins : Opener Nat) :
    (x.move origins).Level ↔ x.Level ∧ origins.waitingValues = origins.waitingMacs := by
  simp [Level, move, or_imp, forall_and]

def Names (x : Ledger T) : List Nat → List T → Prop :=
  List.Forall₂ fun e m => x.macs[e]? = some m

theorem Names.mono {x y : Ledger T} {es : List Nat} {ms : List T} (h : x.Names es ms)
    (hxy : x.macs <+: y.macs) : y.Names es ms := by
  refine List.Forall₂.imp (fun e m he => ?_) h
  obtain ⟨rest, hrest⟩ := hxy
  rw [← hrest, List.getElem?_append_left (List.getElem?_eq_some_iff.mp he).1]
  exact he

theorem Names.concat {x y : Ledger T} {es : List Nat} {ms : List T} (h : x.Names es ms)
    {mac : T} (hy : y.macs = x.macs ++ [mac]) : y.Names (es ++ [x.macs.length]) (ms ++ [mac]) := by
  refine List.rel_append (h.mono ⟨[mac], hy.symm⟩) (.cons ?_ .nil)
  simp [hy]

end Ledger

structure InStep (s : Account T) : Prop where
  phase : s.opener.phase = s.ledger.origins.phase
  opened : s.opener.opened.length = s.ledger.origins.opened.length
  pendingMacs : s.ledger.Names s.ledger.origins.pendingMacs s.opener.pendingMacs
  waitingValues : s.opener.waitingValues.length = s.ledger.origins.waitingValues.length
  waitingMacs : s.ledger.Names s.ledger.origins.waitingMacs s.opener.waitingMacs
  collected : s.opener.phase = .accumulating →
    s.ledger.origins.opened = s.ledger.origins.pendingMacs
  shown : s.opener.phase = .exchanged → s.ledger.origins.pendingMacs = []
  idle : s.opener.phase = .idle → s.ledger.origins.opened = []

namespace InStep

variable {o : Opener T} {x : Ledger T}

theorem new (mode : ExchangeMode) (keyShare : T) (c : Config) :
    InStep (⟨.new mode keyShare c, .new mode c⟩ : Account T) :=
  ⟨rfl, rfl, .nil, rfl, .nil, fun _ => rfl, fun _ => rfl, fun _ => rfl⟩

theorem start (h : InStep ⟨o, x⟩) : InStep ⟨o.start, x.start⟩ where
  phase := rfl
  opened := rfl
  pendingMacs := .nil
  waitingValues := h.waitingValues
  waitingMacs := h.waitingMacs
  collected _ := rfl
  shown hp := by cases hp
  idle hp := by cases hp

theorem prepare (h : InStep ⟨o, x⟩) (share : Share T) (len : Option Nat) :
    InStep ⟨o.prepare share len, x.prepare share len⟩ := by
  have hmacs : x.macs <+: (x.prepare share len).macs := ⟨[share.mac], rfl⟩
  have hwaiting : (x.prepare share len).Names x.origins.waitingMacs o.waitingMacs :=
    h.waitingMacs.mono hmacs
  by_cases ho : o.phase = .accumulating
  · have hp : x.origins.phase = .accumulating := h.phase.symm.trans ho
    have hopened : o.opened.length = x.origins.opened.length := h.opened
    have hcollected : x.origins.opened = x.origins.pendingMacs := h.collected ho
    rw [Ledger.prepare] at hwaiting ⊢
    rw [Opener.prepare_eq_append ho]
    rw [Opener.prepare_eq_append hp] at hwaiting ⊢
    exact
      { phase := h.phase
        opened := by simp [Ledger.move, hopened]
        pendingMacs := h.pendingMacs.concat rfl
        waitingValues := h.waitingValues
        waitingMacs := hwaiting
        collected := fun _ => by simp [Ledger.move, hcollected]
        shown := fun hs => by cases ho.symm.trans hs
        idle := fun hs => by cases ho.symm.trans hs }
  · have hp : ¬ x.origins.phase = .accumulating := fun h' => ho (h.phase.trans h')
    rw [Ledger.prepare] at hwaiting ⊢
    rw [Opener.prepare_eq_single ho]
    rw [Opener.prepare_eq_single hp] at hwaiting ⊢
    exact
      { phase := rfl
        opened := rfl
        pendingMacs := Ledger.Names.concat (x := x) .nil rfl
        waitingValues := h.waitingValues
        waitingMacs := hwaiting
        collected := fun _ => rfl
        shown := fun hs => by cases hs
        idle := fun hs => by cases hs }

theorem replace (h : InStep ⟨o, x⟩) {opened : List T} (hlen : opened.length = o.opened.length)
    (aggregator : Aggregator) : InStep ⟨{ o with opened, aggregator }, x⟩ :=
  ⟨h.phase, hlen.trans h.opened, h.pendingMacs, h.waitingValues, h.waitingMacs, h.collected,
    h.shown, h.idle⟩

theorem record (h : InStep ⟨o, x⟩) : InStep ⟨o.record, x.record o⟩ where
  phase := rfl
  opened := h.opened
  pendingMacs := .nil
  waitingValues := by
    have hwaiting : o.waitingValues.length = x.origins.waitingValues.length := h.waitingValues
    have hopened : o.opened.length = x.origins.opened.length := h.opened
    simp [Opener.record, Ledger.record, Ledger.move, hwaiting, hopened]
  waitingMacs := List.rel_append h.waitingMacs h.pendingMacs
  collected hs := by cases hs
  shown _ := rfl
  idle hs := by cases hs

theorem finish (h : InStep ⟨o, x⟩) : InStep ⟨o.finish.2, x.finish⟩ where
  phase := rfl
  opened := rfl
  pendingMacs := h.pendingMacs
  waitingValues := h.waitingValues
  waitingMacs := h.waitingMacs
  collected hs := by cases hs
  shown hs := by cases hs
  idle _ := rfl

theorem addWaiting (h : InStep ⟨o, x⟩) (share : Share T) (opened : T) :
    InStep ⟨o.addWaiting share.mac opened, x.addWaiting share opened⟩ where
  phase := h.phase
  opened := h.opened
  pendingMacs := h.pendingMacs.mono ⟨[share.mac], rfl⟩
  waitingValues := by
    have hwaiting : o.waitingValues.length = x.origins.waitingValues.length := h.waitingValues
    simp [Opener.addWaiting, Ledger.addWaiting, Ledger.move, hwaiting]
  waitingMacs := h.waitingMacs.concat rfl
  collected := h.collected
  shown := h.shown
  idle := h.idle

theorem pass (h : InStep ⟨o, x⟩) : InStep ⟨o.clearWaiting, x.pass o⟩ :=
  ⟨h.phase, h.opened, h.pendingMacs, rfl, .nil, h.collected, h.shown, h.idle⟩

theorem opened_eq_pendingMacs (h : InStep ⟨o, x⟩)
    (hlen : o.opened.length = o.pendingMacs.length) :
    x.origins.opened = x.origins.pendingMacs := by
  have hopened : o.opened.length = x.origins.opened.length := h.opened
  have hpending : x.origins.pendingMacs.length = o.pendingMacs.length :=
    h.pendingMacs.length_eq
  cases hp : o.phase with
  | accumulating => exact h.collected hp
  | exchanged =>
    have hnil : x.origins.pendingMacs = [] := h.shown hp
    rw [hnil] at hpending ⊢
    exact List.length_eq_zero_iff.mp (by rw [← hopened, hlen, ← hpending]; rfl)
  | idle =>
    have hnil : x.origins.opened = [] := h.idle hp
    rw [hnil] at hopened ⊢
    exact (List.length_eq_zero_iff.mp (by rw [hpending, ← hlen, hopened]; rfl)).symm

end InStep

structure Accounts (s : Account T) : Prop where
  inStep : InStep s
  level_iff : s.ledger.Level ↔ s.ledger.Balanced
  aligned : s.ledger.Balanced → s.ledger.origins.waitingValues = s.ledger.origins.waitingMacs
  recorded : s.ledger.Balanced → s.ledger.checked.map (·.1) ++
    s.opener.waitingValues.zip s.ledger.origins.waitingValues = s.ledger.recorded
  paired : s.ledger.Balanced → ∀ c ∈ s.ledger.checked,
    c.1.2 = c.2.2 ∧ s.ledger.macs[c.1.2]? = some c.2.1

namespace Accounts

variable {o o' : Opener T} {x y : Ledger T}

theorem new (mode : ExchangeMode) (keyShare : T) (c : Config) :
    Accounts (⟨.new mode keyShare c, .new mode c⟩ : Account T) where
  inStep := .new mode keyShare c
  level_iff := ⟨fun _ b hb => (by cases hb), fun _ p hp => (by cases hp)⟩
  aligned _ := rfl
  recorded _ := rfl
  paired _ c hc := by cases hc

theorem quiet (h : Accounts ⟨o, x⟩) {macs : List T} {origins : Opener Nat}
    (hs : InStep ⟨o', Ledger.move { x with macs } origins⟩) (hmacs : x.macs <+: macs)
    (hvalues : origins.waitingValues = x.origins.waitingValues)
    (hwaiting : origins.waitingMacs = x.origins.waitingMacs)
    (ho : o'.waitingValues = o.waitingValues) :
    Accounts ⟨o', Ledger.move { x with macs } origins⟩ := by
  have haligned : x.Balanced → origins.waitingValues = origins.waitingMacs := fun hb => by
    rw [hvalues, hwaiting]
    exact h.aligned hb
  refine ⟨hs, (Ledger.level_move _ _).trans ⟨fun hl => h.level_iff.mp hl.1, fun hb => ?_⟩,
    haligned, fun hb => ?_, fun hb c hc => ?_⟩
  · exact ⟨h.level_iff.mpr hb, haligned hb⟩
  · show x.checked.map (·.1) ++ o'.waitingValues.zip origins.waitingValues = x.recorded
    rw [ho, hvalues]
    exact h.recorded hb
  · obtain ⟨hsame, hget⟩ := h.paired hb c hc
    obtain ⟨rest, rfl⟩ := hmacs
    refine ⟨hsame, ?_⟩
    show (x.macs ++ rest)[c.1.2]? = _
    rw [List.getElem?_append_left (List.getElem?_eq_some_iff.mp hget).1]
    exact hget

theorem start (h : Accounts ⟨o, x⟩) : Accounts ⟨o.start, x.start⟩ :=
  h.quiet h.inStep.start List.prefix_rfl rfl rfl rfl

theorem finish (h : Accounts ⟨o, x⟩) : Accounts ⟨o.finish.2, x.finish⟩ :=
  h.quiet h.inStep.finish List.prefix_rfl rfl rfl rfl

theorem prepare (h : Accounts ⟨o, x⟩) (share : Share T) (len : Option Nat) :
    Accounts ⟨o.prepare share len, x.prepare share len⟩ := by
  have hkeep : ∀ {β : Type} (o : Opener β) (share : Share β),
      (o.prepare share len).waitingValues = o.waitingValues ∧
        (o.prepare share len).waitingMacs = o.waitingMacs := by
    intro β o share
    by_cases hp : o.phase = .accumulating
    · rw [Opener.prepare_eq_append hp]
      exact ⟨rfl, rfl⟩
    · rw [Opener.prepare_eq_single hp]
      exact ⟨rfl, rfl⟩
  exact h.quiet (h.inStep.prepare share len) ⟨[share.mac], rfl⟩ (hkeep _ _).1 (hkeep _ _).2
    (hkeep _ _).1

theorem replace (h : Accounts ⟨o, x⟩) {opened : List T} (hlen : opened.length = o.opened.length)
    (aggregator : Aggregator) : Accounts ⟨{ o with opened, aggregator }, x⟩ :=
  ⟨h.inStep.replace hlen aggregator, h.level_iff, h.aligned, h.recorded, h.paired⟩

theorem record (h : Accounts ⟨o, x⟩) : Accounts ⟨o.record, x.record o⟩ := by
  have hbalanced : (x.record o).Balanced ↔
      x.Balanced ∧ o.opened.length = o.pendingMacs.length := by
    simp [Ledger.Balanced, Ledger.record, Ledger.move, or_imp, forall_and]
  have hlevel : (x.record o).Level ↔ x.Level ∧ x.origins.waitingValues ++ x.origins.opened =
      x.origins.waitingMacs ++ x.origins.pendingMacs := Ledger.level_move _ _
  have hopened : o.opened.length = x.origins.opened.length := h.inStep.opened
  have hpending : x.origins.pendingMacs.length = o.pendingMacs.length :=
    h.inStep.pendingMacs.length_eq
  have haligned : (x.record o).Balanced → x.origins.waitingValues ++ x.origins.opened =
      x.origins.waitingMacs ++ x.origins.pendingMacs := fun hb => by
    obtain ⟨hx, hlen⟩ := hbalanced.mp hb
    rw [h.inStep.opened_eq_pendingMacs hlen, show x.origins.waitingValues = _ from h.aligned hx]
  refine ⟨h.inStep.record, ⟨fun hl => ?_, fun hb => ?_⟩, haligned, fun hb => ?_, fun hb => ?_⟩
  · obtain ⟨hx, hlists⟩ := hlevel.mp hl
    have hbx : x.Balanced := h.level_iff.mp hx
    rw [show x.origins.waitingValues = _ from h.aligned hbx] at hlists
    have hlen := congrArg List.length (List.append_cancel_left hlists)
    exact hbalanced.mpr ⟨hbx, by omega⟩
  · exact hlevel.mpr ⟨h.level_iff.mpr (hbalanced.mp hb).1, haligned hb⟩
  · have hwaiting : o.waitingValues.length = x.origins.waitingValues.length :=
      h.inStep.waitingValues
    have hrecorded := h.recorded (hbalanced.mp hb).1
    show x.checked.map (·.1) ++ (o.waitingValues ++ o.opened).zip
      (x.origins.waitingValues ++ x.origins.opened) = x.recorded ++ o.opened.zip x.origins.opened
    rw [List.zip_append hwaiting, ← List.append_assoc]
    exact congrArg (· ++ _) hrecorded
  · exact h.paired (hbalanced.mp hb).1

theorem addWaiting (h : Accounts ⟨o, x⟩) (share : Share T) (opened : T) :
    Accounts ⟨o.addWaiting share.mac opened, x.addWaiting share opened⟩ := by
  have haligned : x.Balanced → x.origins.waitingValues ++ [x.macs.length] =
      x.origins.waitingMacs ++ [x.macs.length] := fun hb => by
    rw [show x.origins.waitingValues = _ from h.aligned hb]
  refine ⟨h.inStep.addWaiting share opened,
    (Ledger.level_move _ _).trans ⟨fun hl => h.level_iff.mp hl.1, fun hb => ?_⟩, haligned,
    fun hb => ?_, fun hb c hc => ?_⟩
  · exact ⟨h.level_iff.mpr hb, haligned hb⟩
  · have hwaiting : o.waitingValues.length = x.origins.waitingValues.length :=
      h.inStep.waitingValues
    have hrecorded := h.recorded hb
    show x.checked.map (·.1) ++ (o.waitingValues ++ [opened]).zip
      (x.origins.waitingValues ++ [x.macs.length]) = x.recorded ++ [(opened, x.macs.length)]
    rw [List.zip_append hwaiting, ← List.append_assoc]
    exact congrArg (· ++ _) hrecorded
  · obtain ⟨hsame, hget⟩ := h.paired hb c hc
    refine ⟨hsame, ?_⟩
    show (x.macs ++ [share.mac])[c.1.2]? = _
    rw [List.getElem?_append_left (List.getElem?_eq_some_iff.mp hget).1]
    exact hget

theorem pass (h : Accounts ⟨o, x⟩) : Accounts ⟨o.clearWaiting, x.pass o⟩ := by
  have hvalues : o.waitingValues.length = x.origins.waitingValues.length := h.inStep.waitingValues
  have hmacs : x.origins.waitingMacs.length = o.waitingMacs.length :=
    h.inStep.waitingMacs.length_eq
  refine ⟨h.inStep.pass,
    (Ledger.level_move _ _).trans ⟨fun hl => h.level_iff.mp hl.1, fun hb => ?_⟩, fun _ => rfl,
    fun hb => ?_, fun hb c hc => ?_⟩
  · exact ⟨h.level_iff.mpr hb, rfl⟩
  · have hlists : x.origins.waitingValues = x.origins.waitingMacs := h.aligned hb
    have hlen : (o.waitingValues.zip x.origins.waitingValues).length ≤
        (o.waitingMacs.zip x.origins.waitingMacs).length := by
      rw [List.length_zip, List.length_zip, hlists]
      omega
    have hrecorded := h.recorded hb
    show (x.checked ++ (o.waitingValues.zip x.origins.waitingValues).zip
      (o.waitingMacs.zip x.origins.waitingMacs)).map (·.1) ++ [] = x.recorded
    rw [List.append_nil, List.map_append, List.map_fst_zip hlen]
    exact hrecorded
  · have hlists : x.origins.waitingValues = x.origins.waitingMacs := h.aligned hb
    rcases List.mem_append.mp hc with hc | hc
    · exact h.paired hb c hc
    · obtain ⟨k, hk, rfl⟩ := List.mem_iff_getElem.mp hc
      have hkm : k < o.waitingMacs.length := by
        simp only [List.length_zip] at hk
        omega
      have hnames := (List.forall₂_iff_get.mp h.inStep.waitingMacs).2 k (hmacs ▸ hkm) hkm
      simp only [List.getElem_zip, hlists, true_and]
      exact hnames

end Accounts

namespace Opener

variable [MacElement T] {player : Player} {o o' : Opener T} {u : Unit}

theorem exchangeShares_yields (h : (exchangeShares player).Yields o u o') :
    ∃ opened aggregator, opened.length = o.opened.length ∧ o' = { o with opened, aggregator } := by
  obtain ⟨opened, packed, -, hlen, rfl⟩ | ⟨e, _, he, -⟩ := exchangeShares_ends h
  · exact ⟨opened, _, hlen, rfl⟩
  · cases he

end Opener

namespace Account

variable {s s' : Account T} {u : Unit}

theorem note_yields {f : Opener T → Ledger T → Ledger T} (h : (note f).Yields s u s') :
    s' = ⟨s.opener, f s.opener s.ledger⟩ := (Action.yields_modify.mp h).symm

theorem act_modify_yields {g : Opener T → Opener T} (h : (act (modify g)).Yields s u s') :
    s' = ⟨g s.opener, s.ledger⟩ := by
  obtain ⟨o, ho, rfl⟩ := Action.yields_zoom h
  rw [← Action.yields_modify.mp ho]

end Account

namespace Accounts

variable {s s' : Account T} {u : Unit}

theorem of_takeOpened (h : Accounts s) {values : List T}
    (hy : Account.takeOpened.Yields s values s') : Accounts s' := by
  obtain ⟨_, v, hnote, hy⟩ := Action.yields_bind.mp hy
  rw [Account.note_yields hnote] at hy
  obtain ⟨o, ho, rfl⟩ := Action.yields_zoom hy
  cases ho
  exact h.finish

theorem prepareAll {o : Opener T} {x : Ledger T} (h : Accounts ⟨o, x⟩)
    (shares : List (Share T)) :
    Accounts ⟨shares.foldl (fun o share => o.prepare share none) o,
      shares.foldl (fun x share => x.prepare share none) x⟩ := by
  induction shares generalizing o x with
  | nil => exact h
  | cons share rest ih => exact ih (h.prepare share none)

variable [MacElement T] [Wire T] {player : Player}

theorem of_check (h : Accounts s) (hy : (Account.check player).Yields s u s') : Accounts s' := by
  obtain ⟨_, _, hget, hy⟩ := Action.yields_bind.mp hy
  obtain ⟨rfl, rfl⟩ := Action.yields_get.mp hget
  obtain ⟨_, v, hcheck, hy⟩ := Action.yields_bind.mp hy
  obtain ⟨o, ho, rfl⟩ := Action.yields_zoom hcheck
  rw [Account.note_yields hy, Opener.check_ends ho]
  exact h.pass

theorem of_checkIfDue (h : Accounts s) (hy : (Account.checkIfDue player).Yields s u s') :
    Accounts s' := by
  obtain ⟨_, _, hget, hy⟩ := Action.yields_bind.mp hy
  obtain ⟨rfl, rfl⟩ := Action.yields_get.mp hget
  by_cases hdue : s.opener.checkAfter ≤ s.opener.waiting
  · simp only [hdue, ↓reduceIte] at hy
    exact h.of_check hy
  · simp only [hdue, ↓reduceIte] at hy
    rw [← (Action.yields_pure.mp hy).2]
    exact h

theorem of_exchange (h : Accounts s) (hy : (Account.exchange player).Yields s u s') :
    Accounts s' := by
  obtain ⟨_, v, hshares, hy⟩ := Action.yields_bind.mp hy
  obtain ⟨o, ho, rfl⟩ := Action.yields_zoom hshares
  obtain ⟨opened, aggregator, hlen, rfl⟩ := Opener.exchangeShares_yields ho
  obtain ⟨_, v, hnote, hy⟩ := Action.yields_bind.mp hy
  rw [Account.note_yields hnote] at hy
  obtain ⟨_, v, hrecord, hy⟩ := Action.yields_bind.mp hy
  rw [Account.act_modify_yields hrecord] at hy
  exact (h.replace hlen aggregator).record.of_checkIfDue hy

theorem of_openAll (h : Accounts s) {shares : List (Share T)} {values : List T}
    (hy : (Account.openAll player shares).Yields s values s') : Accounts s' := by
  obtain ⟨_, v, hnote, hy⟩ := Action.yields_bind.mp hy
  rw [Account.note_yields hnote] at hy
  obtain ⟨_, v, hstart, hy⟩ := Action.yields_bind.mp hy
  rw [Account.act_modify_yields hstart] at hy
  obtain ⟨_, v, hexchange, hy⟩ := Action.yields_bind.mp hy
  exact ((h.start.prepareAll shares).of_exchange hexchange).of_takeOpened hy

end Accounts

end AuthShares
