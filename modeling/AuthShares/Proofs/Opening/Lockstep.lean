import AuthShares.Proofs.Aggregation.Lengths
import AuthShares.Proofs.Opening.Batches
import AuthShares.Proofs.Opening.Results

/-!
# Openers in lockstep

What the players send to whom, and when, depends on how many elements they hold but not on
which. So players that carry out the same operations get through all of them together, whatever
their shares are: everyone has the sums of what was sent, or everyone fails alike.
-/

set_option autoImplicit false

namespace AuthShares

variable {n : Nat} {capacity : Option Nat} {T : Type}

namespace Opener

/-- An opener without its elements, and without the message that was packed last. -/
def shape (o : Opener T) : Opener Unit where
  keyShare := ()
  aggregator := { o.aggregator with packed := [] }
  mode := o.mode
  checkAfter := o.checkAfter
  opened := o.opened.map fun _ => ()
  lengths := o.lengths
  pendingMacs := o.pendingMacs.map fun _ => ()
  waitingValues := o.waitingValues.map fun _ => ()
  waitingMacs := o.waitingMacs.map fun _ => ()
  phase := o.phase

theorem shape_clear (o : Opener T) (phase : Phase) :
    (o.clear phase).shape = o.shape.clear phase := rfl

theorem shape_prepare (o : Opener T) (share : Share T) (len : Option Nat) :
    (o.prepare share len).shape = o.shape.prepare ⟨(), ()⟩ len := by
  by_cases h : o.phase = .accumulating
  · rw [prepare_eq_append h, prepare_eq_append (show o.shape.phase = _ from h)]
    simp [shape]
  · rw [prepare_eq_single h, prepare_eq_single (show ¬ o.shape.phase = _ from h)]
    rfl

theorem shape_record (o : Opener T) : o.record.shape = o.shape.record := by
  simp [shape, record]

theorem shape_finish (o : Opener T) : o.finish.2.shape = o.shape.finish.2 := rfl

theorem shape_addWaiting (o : Opener T) (mac opened : T) :
    (o.addWaiting mac opened).shape = o.shape.addWaiting () () := by
  simp [shape, addWaiting]

theorem shape_clearWaiting (o : Opener T) : o.clearWaiting.shape = o.shape.clearWaiting := rfl

theorem shape_setTopology (o : Opener T) (field : Config.Field) (k : Nat) :
    (o.setTopology field k).shape = o.shape.setTopology field k := by
  cases field <;> rfl

theorem shape_replace (o : Opener T) {opened : List T} {aggregator : Aggregator}
    (hlen : opened.length = o.opened.length)
    (ha : ∃ packed, aggregator = { o.aggregator with packed }) :
    shape { o with opened, aggregator } = o.shape := by
  obtain ⟨packed, rfl⟩ := ha
  simp [shape, hlen]

theorem waiting_shape (o : Opener T) : o.shape.waiting = o.waiting := by
  simp [shape, waiting]

def sentLengths (o : Opener T) : List (Option Nat) :=
  match o.mode with
  | .aggregated => Aggregator.usedLengths o.opened.length o.lengths
  | .direct => o.lengths

theorem sentLengths_eq {o : Opener T} (h : o.lengths.length = o.opened.length) :
    o.sentLengths = o.lengths := by
  unfold sentLengths
  split
  · exact if_pos h
  · rfl

structure Alike [Element T] (u : Opener Unit) (o : Fin n → Opener T) : Prop where
  shape (i : Fin n) : (o i).shape = u
  canonical (i : Fin n) : ∀ y ∈ (o i).opened, Element.isCanonical y

namespace Alike

variable [Element T] {u : Opener Unit} {o o' : Fin n → Opener T}

theorem mode (h : Alike u o) (i : Fin n) : (o i).mode = u.mode :=
  congrArg Opener.mode (h.shape i)

theorem checkAfter (h : Alike u o) (i : Fin n) : (o i).checkAfter = u.checkAfter :=
  congrArg Opener.checkAfter (h.shape i)

theorem lengths (h : Alike u o) (i : Fin n) : (o i).lengths = u.lengths :=
  congrArg Opener.lengths (h.shape i)

theorem length_opened (h : Alike u o) (i : Fin n) : (o i).opened.length = u.opened.length := by
  rw [← h.shape i]
  exact (List.length_map _).symm

theorem aggregator (h : Alike u o) (i : Fin n) :
    (o i).aggregator = { u.aggregator with packed := (o i).aggregator.packed } := by
  rw [← h.shape i]
  rfl

theorem waiting (h : Alike u o) (i : Fin n) : (o i).waiting = u.waiting := by
  rw [← h.shape i, waiting_shape]

theorem sentLengths (h : Alike u o) (i : Fin n) : (o i).sentLengths = u.sentLengths := by
  rw [Opener.sentLengths, Opener.sentLengths, h.mode i, h.length_opened i, h.lengths i]

theorem change (h : Alike u o) {f : Opener Unit → Opener Unit}
    (hshape : ∀ i, (o' i).shape = f (o i).shape)
    (hopened : ∀ i, ∀ y ∈ (o' i).opened, y ∈ (o i).opened) : Alike (f u) o' where
  shape i := by rw [hshape i, h.shape i]
  canonical i y hy := h.canonical i y (hopened i y hy)

theorem start (h : Alike u o) : Alike u.start fun i => (o i).start :=
  h.change (f := Opener.start) (fun i => shape_clear (o i) _) fun _ _ hy =>
    absurd hy List.not_mem_nil

theorem finish (h : Alike u o) : Alike u.finish.2 fun i => (o i).finish.2 :=
  h.change (f := fun u => u.finish.2) (fun i => shape_finish (o i)) fun _ _ hy =>
    absurd hy List.not_mem_nil

end Alike

section Sums

variable [MacElement T] [Written T] {u : Opener Unit} {o : Fin n → Opener T}

open Element

omit [Written T] in
theorem sumShares_malformed {o : Opener T} {e : ReadError}
    (h : Summation.checkLengths T o.sentLengths = .error e) (player : Player) :
    sumShares player o = .done ((.error (.malformed e), o.opened), o.aggregator) := by
  unfold sentLengths at h
  unfold sumShares
  cases hmode : o.mode with
  | aggregated =>
    simp only [hmode] at h ⊢
    have hrun : (Aggregator.exchange o.aggregator player o.lengths).run.run
        (⟨o.aggregator.packed, o.opened⟩ : Summation T) =
          .done (.error (.malformed e), ⟨o.aggregator.packed, o.opened⟩) := by
      rw [Aggregator.exchange, Action.run_bind_done (Action.run_get _)]
      simp only [h]
      rfl
    exact (congrArg (Protocol.bind · _) hrun).trans rfl
  | direct =>
    simp only [hmode] at h ⊢
    have hrun : (Summation.direct player o.lengths).run.run (⟨[], o.opened⟩ : Summation T) =
        .done (.error (.malformed e), ⟨[], o.opened⟩) := by
      rw [Summation.direct, h]
      rfl
    exact (congrArg (Protocol.bind · _) hrun).trans rfl

/-- Everyone gets the sums of the batches of all players, as far as they are sent, or everyone
finds the same fault in the declared lengths. -/
theorem sumShares_alike (hcap : capacity ≠ some 0) (hpos : 0 < n) (hn : 2 * n < wordRange)
    (h : Alike u o) (t : Fin n → Tape) :
    ∃ (r : Except Error Unit) (v : Fin n → List T) (aggregator : Fin n → Aggregator),
      World.Together capacity (fun i => sumShares (Player.numbered i) (o i)) t
        (fun i => ((r, v i), aggregator i)) t ∧
      (∀ i, ∃ packed, aggregator i = { (o i).aggregator with packed }) ∧
      (∀ e, r = .error e → ¬ Element.Fits T u.sentLengths) ∧
      (r = .ok () → ∀ i, Shows (precision u.sentLengths fun j => (o j).opened) u.opened.length
        (fun j => (o j).opened) (v i) fun _ => Finset.univ) := by
  cases hcheck : Summation.checkLengths T u.sentLengths with
  | error e =>
    refine ⟨.error (.malformed e), fun i => (o i).opened, fun i => (o i).aggregator, ?_,
      fun i => ⟨_, rfl⟩, fun _ _ hfits => ?_, fun hr => by cases hr⟩
    · have hfault : ∀ i, Summation.checkLengths T (o i).sentLengths = .error e := fun i => by
        rw [h.sentLengths i, hcheck]
      simp only [fun i => sumShares_malformed (hfault i) (Player.numbered i)]
      exact World.Together.pure _ t
    · cases hcheck.symm.trans (Summation.checkLengths_eq_ok_iff.mpr hfits)
  | ok =>
    have f := (Summation.checkLengths_eq_ok_iff.mp hcheck).faithful_sums u.opened.length
      fun j => (o j).opened
    cases hmode : u.mode with
    | aggregated =>
      rw [sentLengths, hmode] at f ⊢
      obtain ⟨v, packed, htog, hv⟩ := Aggregator.sumEach_together hcap hpos hn u.aggregator f
        h.length_opened h.canonical (fun i => (o i).aggregator.packed) t
      refine ⟨.ok (), v, fun i => { u.aggregator with packed := packed i }, ?_,
        fun i => ⟨packed i, by rw [h.aggregator i]⟩, (fun _ hr => nomatch hr), fun _ => hv⟩
      simp only [sumShares, h.mode, hmode, h.lengths, ← h.aggregator] at htog ⊢
      exact htog
    | direct =>
      rw [sentLengths, hmode] at f hcheck ⊢
      obtain ⟨v, htog, hv⟩ := sumShares_direct hcap (fun i => (h.mode i).trans hmode) f hcheck
        h.length_opened h.canonical (fun _ => rfl) h.lengths t
      exact ⟨.ok (), v, fun i => (o i).aggregator, htog, fun i => ⟨_, rfl⟩,
        (fun _ hr => nomatch hr), fun _ => hv⟩

def Summed (o : Fin n → Opener T) (u : Opener Unit) (v : List T) : Prop :=
  Shows (precision u.sentLengths fun j => (o j).opened) u.opened.length (fun j => (o j).opened) v
    fun _ => Finset.univ

theorem Alike.replace (h : Alike u o) {v : Fin n → List T} {aggregator : Fin n → Aggregator}
    (hv : ∀ i, Summed o u (v i))
    (ha : ∀ i, ∃ packed, aggregator i = { (o i).aggregator with packed }) :
    Alike u fun i => { o i with opened := v i, aggregator := aggregator i } where
  shape i := by
    rw [shape_replace (o i) ((hv i).length.trans (h.length_opened i).symm) (ha i), h.shape i]
  canonical i y hy := by
    obtain ⟨k, hk, rfl⟩ := List.mem_iff_getElem.mp hy
    rw [← List.getD_eq_getElem _ 0 hk]
    exact (hv i).canonical k

/-- An exchange of shares leaves everyone with the sums or, if a value is declared too long,
everyone idle. -/
theorem exchangeShares_alike (hcap : capacity ≠ some 0) (hpos : 0 < n) (hn : 2 * n < wordRange)
    (h : Alike u o) (t : Fin n → Tape) :
    (∃ (e : Error) (o' : Fin n → Opener T), ¬ Element.Fits T u.sentLengths ∧
      World.Together capacity (fun i => (exchangeShares (Player.numbered i)).run.run (o i)) t
        (fun i => (.error e, o' i)) t ∧
      Alike (u.clear .idle) o' ∧ ∀ i, (o' i).phase = .idle ∧ (o' i).opened = []) ∨
    ∃ o' : Fin n → Opener T, Accord capacity (fun i => exchangeShares (Player.numbered i)) o t
        (fun _ => ()) o' t ∧
      Alike u o' ∧ ∀ i, Summed o u (o' i).opened := by
  obtain ⟨r, v, aggregator, htog, ha, hfault, hv⟩ := sumShares_alike hcap hpos hn h t
  cases r with
  | error e =>
    refine .inl ⟨e, fun i => clear { o i with aggregator := aggregator i } .idle, hfault e rfl,
      ?_, ?_, fun i => ⟨rfl, rfl⟩⟩
    · exact Accord.thenDo (Accord.of_done (fun i => Action.run_get (o i)) t)
        ((Accord.protocol htog o).thenDo (World.Together.pure _ t))
    · refine h.change (f := (·.clear .idle)) (fun i => ?_) fun i y hy => absurd hy List.not_mem_nil
      rw [shape_clear, shape_replace (o i) rfl (ha i)]
  | ok a =>
    exact .inr ⟨_, exchangeShares_of_sums htog, h.replace (hv rfl) ha, hv rfl⟩

variable [Wire T] [LawfulWire T]

omit [Written T] in
theorem check_alike (hcap : capacity ≠ some 0) (hn : n < wordRange) (h : Alike u o)
    (t : Fin n → Tape) :
    ∃ (r : Except Error Unit) (t' : Fin n → Tape), World.Together capacity
      (fun i => (check (Player.numbered i)).run.run (o i)) t
      (fun i => (r, (o i).clearWaiting)) t' := by
  by_cases hzero : u.waiting = 0
  · refine ⟨.ok (), t, Accord.bind_done (fun i => Action.run_get (o i)) ?_⟩
    simp only [h.waiting, hzero, ↓reduceIte,
      fun i => clearWaiting_of_waiting_eq_zero ((h.waiting i).trans hzero)]
    exact Accord.pure _ _ t
  · have hverdict := checkWith_verdict hcap hn MacElement.random
      (fun i => (h.waiting i).symm ▸ hzero) t
    simp only [checkWith_random] at hverdict
    exact ⟨_, _, hverdict⟩

omit [Written T] in
theorem checkIfDue_alike (hcap : capacity ≠ some 0) (hn : n < wordRange) (h : Alike u o)
    (t : Fin n → Tape) :
    ∃ (r : Except Error Unit) (u' : Opener Unit) (o' : Fin n → Opener T) (t' : Fin n → Tape),
      World.Together capacity (fun i => (checkIfDue (Player.numbered i)).run.run (o i)) t
        (fun i => (r, o' i)) t' ∧
      Alike u' o' ∧ ∀ i, KeepsBatch (o i) (o' i) := by
  have hiff : ∀ i, (o i).checkAfter ≤ (o i).waiting ↔ u.checkAfter ≤ u.waiting := fun i => by
    rw [h.checkAfter, h.waiting]
  by_cases hdue : u.checkAfter ≤ u.waiting
  · obtain ⟨r, t', htog⟩ := check_alike hcap hn h t
    simp only [← fun i => checkIfDue_run_of_le ((hiff i).mpr hdue) (Player.numbered i)] at htog
    exact ⟨r, u.clearWaiting, fun i => (o i).clearWaiting, t', htog,
      h.change (fun i => shape_clearWaiting (o i)) fun _ _ hy => hy, fun _ => ⟨rfl, rfl, rfl⟩⟩
  · have hlt : ∀ i, (o i).waiting < (o i).checkAfter := fun i =>
      Nat.not_le.mp fun hle => hdue ((hiff i).mp hle)
    exact ⟨.ok (), u, o, t, Accord.of_done (fun i => checkIfDue_run_of_lt (hlt i) _) t, h,
      fun _ => ⟨rfl, rfl, rfl⟩⟩

/-- An exchange leaves everyone with the sums, be it with an error of the check that follows or,
if a value is declared too long, everyone idle. -/
theorem exchange_alike (hcap : capacity ≠ some 0) (hpos : 0 < n) (hn : 2 * n < wordRange)
    (h : Alike u o) (t : Fin n → Tape) :
    ∃ (r : Except Error Unit) (u' : Opener Unit) (o' : Fin n → Opener T) (t' : Fin n → Tape),
      World.Together capacity (fun i => (exchange (Player.numbered i)).run.run (o i)) t
        (fun i => (r, o' i)) t' ∧
      Alike u' o' ∧ ∀ i, LeavesValues (¬ Element.Fits T u.sentLengths) (Summed o u) r (o' i) := by
  obtain ⟨e, o', hfault, htog, h', hidle⟩ | ⟨v, hacc, h', hsums⟩ :=
    exchangeShares_alike hcap hpos hn h t
  · exact ⟨.error e, _, o', t, World.Together.bind htog (World.Together.pure _ t), h',
      fun i => .inl ⟨hfault, ⟨e, rfl⟩, hidle i⟩⟩
  · have hrecord : Alike u.record fun i => (v i).record :=
      h'.change (f := record) (fun i => shape_record (v i)) fun _ _ hy => hy
    obtain ⟨r, u', o', t', htog, h'', hkeeps⟩ := checkIfDue_alike hcap (by omega) hrecord t
    refine ⟨r, u', o', t', exchange_of_shares hacc htog, h'',
      fun i => .inr ⟨(hkeeps i).phase, ?_⟩⟩
    rw [(hkeeps i).opened]
    exact hsums i

end Sums

end Opener

end AuthShares
