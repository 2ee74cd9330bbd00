import AuthShares.Proofs.Aggregation.Sums
import AuthShares.Proofs.Commitment
import AuthShares.Proofs.Opening.Operations
import AuthShares.Proofs.Opening.Sharing

/-!
# Opening a batch and checking it

In either mode the sums of a batch of sharings are the secrets, in the order of the
batch. A check of values that wait with the shares of their authentications finds no
error, whatever coefficients come of the coins.
-/

set_option autoImplicit false

namespace AuthShares

open scoped BigOperators

variable {n : Nat} {capacity : Option Nat} {T : Type} [MacElement T] [Modular T]
  {key : Fin n → T}

theorem Sharing.eq_secrets {b : List (Sharing T key)} {v : List T}
    (h : Shows (fun _ => Modular.modulus T) b.length
      (fun j => b.map fun s => (s.share j).value) v fun _ => Finset.univ) :
    v = b.map (·.secret) := by
  refine List.ext_getElem (by simp [h.length]) fun k hk hk' => ?_
  have hkb : k < b.length := h.length ▸ hk
  have hres := h.residue k hkb
  have hcan := h.canonical k
  rw [List.getD_eq_getElem _ _ hk] at hres hcan
  rw [List.getElem_map]
  refine Modular.eq_of_residue hcan (Sharing.secret_canonical _) ?_
  rw [hres, ← Sharing.sum_value _ dvd_rfl]
  refine Finset.sum_congr rfl fun j _ => ?_
  rw [List.getD_eq_getElem _ _ (by simpa using hkb), List.getElem_map]

omit [Modular T] in
theorem Sharing.values_canonical (b : List (Sharing T key)) (i : Fin n) :
    ∀ y ∈ b.map (fun s => (s.share i).value), Element.isCanonical y := by
  intro y hy
  obtain ⟨s, -, rfl⟩ := List.mem_map.mp hy
  exact s.value_canonical i

namespace Opener

variable {o : Fin n → Opener T} {a : Aggregator} {mode : ExchangeMode} {q : Nat → Nat} {m : Nat}
  {x : Fin n → List T} {lengths : List (Option Nat)}

/-- When shares are sent to everyone, everyone gets the sums, as far as the shares are sent. -/
theorem sumShares_direct (hcap : capacity ≠ some 0) (hmode : ∀ i, (o i).mode = .direct)
    (f : Faithful T lengths q m x) (hcheck : Summation.checkLengths T lengths = .ok ())
    (hlen : ∀ i, (x i).length = m)
    (hcan : ∀ i, ∀ y ∈ x i, Element.isCanonical y) (hopened : ∀ i, (o i).opened = x i)
    (hlengths : ∀ i, (o i).lengths = lengths) (t : Fin n → Tape) :
    ∃ v : Fin n → List T, World.Together capacity
        (fun i => sumShares (Player.numbered i) (o i)) t
        (fun i => ((.ok (), v i), (o i).aggregator)) t ∧
      ∀ i, Shows q m x (v i) fun _ => Finset.univ := by
  simp only [sumShares, hmode, hopened, hlengths]
  obtain ⟨s', hacc, hs'⟩ := Summation.direct_accord hcap f hcheck
    (s := fun i => ⟨[], x i⟩) (Shows.input hlen hcan) t
  exact ⟨fun i => (s' i).values, World.Together.bind hacc (World.Together.pure _ t), hs'⟩

/-- In either mode everyone gets the sums of what all players put into the batch, as far as it
is sent. -/
theorem sumShares_shows (hcap : capacity ≠ some 0) (hpos : 0 < n) (hn : 2 * n < wordRange)
    (hmode : ∀ i, (o i).mode = mode) (ha : ∀ i, ∃ packed, (o i).aggregator = { a with packed })
    (f : Faithful T lengths q m x) (hm : lengths.length = m) (hlen : ∀ i, (x i).length = m)
    (hcan : ∀ i, ∀ y ∈ x i, Element.isCanonical y) (hopened : ∀ i, (o i).opened = x i)
    (hlengths : ∀ i, (o i).lengths = lengths) (t : Fin n → Tape) :
    ∃ (v : Fin n → List T) (aggregator : Fin n → Aggregator), World.Together capacity
        (fun i => sumShares (Player.numbered i) (o i)) t
        (fun i => ((.ok (), v i), aggregator i)) t ∧
      (∀ i, Shows q m x (v i) fun _ => Finset.univ) ∧
      ∀ i, ∃ packed, aggregator i = { a with packed } := by
  cases mode with
  | aggregated =>
    simp only [sumShares, hmode, hopened, hlengths]
    choose packed hpacked using ha
    have hused : Aggregator.usedLengths m lengths = lengths := if_pos hm
    obtain ⟨v, packed', htog, hv⟩ := Aggregator.sumEach_together hcap hpos hn a
      (hused.symm ▸ f) hlen hcan packed t
    refine ⟨v, fun i => { a with packed := packed' i }, ?_, hv, fun i => ⟨packed' i, rfl⟩⟩
    simp only [hpacked]
    exact htog
  | direct =>
    obtain ⟨v, htog, hv⟩ := sumShares_direct hcap hmode f (f.checkLengths hm.le) hlen hcan
      hopened hlengths t
    exact ⟨v, fun i => (o i).aggregator, htog, hv, ha⟩

omit [Modular T] in
theorem exchangeShares_of_sums {v : Fin n → List T} {aggregator : Fin n → Aggregator}
    {t t' : Fin n → Tape} (h : World.Together capacity
      (fun i => sumShares (Player.numbered i) (o i)) t
      (fun i => ((.ok (), v i), aggregator i)) t') :
    Accord capacity (fun i => exchangeShares (Player.numbered i)) o t (fun _ => ())
      (fun i => { o i with opened := v i, aggregator := aggregator i }) t' :=
  Accord.bind_done (fun i => Action.run_get (o i))
    ((Accord.protocol h o).bind (Accord.of_done (fun _ => rfl) t'))

/-- A batch is opened: its shares are replaced by their sums. -/
theorem exchangeShares_shows (hcap : capacity ≠ some 0) (hpos : 0 < n) (hn : 2 * n < wordRange)
    (hmode : ∀ i, (o i).mode = mode) (ha : ∀ i, ∃ packed, (o i).aggregator = { a with packed })
    (f : Faithful T lengths q m x) (hm : lengths.length = m) (hlen : ∀ i, (x i).length = m)
    (hcan : ∀ i, ∀ y ∈ x i, Element.isCanonical y) (hopened : ∀ i, (o i).opened = x i)
    (hlengths : ∀ i, (o i).lengths = lengths) (t : Fin n → Tape) :
    ∃ (v : Fin n → List T) (aggregator : Fin n → Aggregator), Accord capacity
        (fun i => exchangeShares (Player.numbered i)) o t (fun _ => ())
        (fun i => { o i with opened := v i, aggregator := aggregator i }) t ∧
      (∀ i, Shows q m x (v i) fun _ => Finset.univ) ∧
      ∀ i, ∃ packed, aggregator i = { a with packed } := by
  obtain ⟨v, aggregator, htog, hv, ha'⟩ :=
    sumShares_shows hcap hpos hn hmode ha f hm hlen hcan hopened hlengths t
  exact ⟨v, aggregator, exchangeShares_of_sums htog, hv, ha'⟩

/-- A batch of sharings is opened: its values become the secrets. -/
theorem exchangeShares_accord (hcap : capacity ≠ some 0) (hpos : 0 < n) (hn : 2 * n < wordRange)
    (hmode : ∀ i, (o i).mode = mode) (ha : ∀ i, ∃ packed, (o i).aggregator = { a with packed })
    (b : List (Sharing T key)) (hopened : ∀ i, (o i).opened = b.map fun s => (s.share i).value)
    (hlengths : ∀ i, (o i).lengths = b.map fun _ => none) (t : Fin n → Tape) :
    ∃ aggregator : Fin n → Aggregator, Accord capacity
        (fun i => exchangeShares (Player.numbered i)) o t (fun _ => ())
        (fun i => { o i with opened := b.map (·.secret), aggregator := aggregator i }) t ∧
      ∀ i, ∃ packed, aggregator i = { a with packed } := by
  have hfull : ∀ len ∈ b.map (fun _ => (none : Option Nat)), len = none := fun len h => by
    obtain ⟨_, -, rfl⟩ := List.mem_map.mp h
    rfl
  obtain ⟨v, aggregator, hacc, hv, ha'⟩ := exchangeShares_shows hcap hpos hn hmode ha
    (faithful_full hfull b.length _) (by simp) (fun i => by simp) (Sharing.values_canonical b)
    hopened hlengths t
  simp only [fun i => Sharing.eq_secrets (hv i)] at hacc
  exact ⟨aggregator, hacc, ha'⟩

variable [Wire T]

omit [Modular T] in
theorem exchange_of_shares {u o' : Fin n → Opener T} {r : Fin n → Except Error Unit}
    {t t' t'' : Fin n → Tape}
    (h : Accord capacity (fun i => exchangeShares (Player.numbered i)) o t (fun _ => ()) u t')
    (hdue : World.Together capacity
      (fun i => (checkIfDue (Player.numbered i)).run.run (u i).record) t'
      (fun i => (r i, o' i)) t'') :
    World.Together capacity (fun i => (exchange (Player.numbered i)).run.run (o i)) t
      (fun i => (r i, o' i)) t'' :=
  h.thenDo (Accord.thenDo (Accord.of_done (fun _ => rfl) t') hdue)

variable [LawfulWire T]

omit [Modular T] in
/-- Shares that are opened by commitment pass just if they sum to zero, for every player. -/
theorem checkZero_verdict (hcap : capacity ≠ some 0) (hn : n < wordRange) (phase : String)
    (share : Fin n → T) (t : Fin n → Tape) :
    World.Together capacity (fun i => (checkZero (Player.numbered i) phase (share i)).run) t
      (fun _ => if MacElement.isZero (Element.total (List.ofFn share)) then .ok ()
        else .error .macCheckFailed) fun i => (t i).tail := by
  refine (Interaction.commitThenOpen_together hcap hn phase share t).thenDo ?_
  split
  · exact World.Together.pure _ _
  · exact World.Together.pure _ _

def checkWith (draw : StateM Generator T) (player : Player) : Action (Opener T) Unit := do
  let o ← getThe (Opener T)
  if o.waiting = 0 then
    return ()
  else
    set o.clearWaiting
    let generator ← Interaction.tossCoins player
    let pairs := o.waitingValues.zip o.waitingMacs
    checkZero player "MAC check" (weighted draw 0 (pairs.map (·.2)) generator -
      o.keyShare * weighted draw 0 (pairs.map (·.1)) generator)

omit [Modular T] [LawfulWire T] in
theorem checkWith_random (player : Player) :
    checkWith (T := T) MacElement.random player = check player := by
  simp only [checkWith, check, combine_run]

def waitingError (draw : StateM Generator T) (g : Generator) (o : Opener T) : T :=
  let pairs := o.waitingValues.zip o.waitingMacs
  weighted draw 0 (pairs.map (·.2)) g - o.keyShare * weighted draw 0 (pairs.map (·.1)) g

omit [Modular T] in
/-- A check has one verdict for all players, whatever waits for it, and discards all that waits. -/
theorem checkWith_verdict (hcap : capacity ≠ some 0) (hn : n < wordRange)
    (draw : StateM Generator T) (h : ∀ i, (o i).waiting ≠ 0) (t : Fin n → Tape) :
    World.Together capacity (fun i => (checkWith draw (Player.numbered i)).run.run (o i)) t
      (fun i => (if MacElement.isZero (Element.total (List.ofFn fun j =>
          waitingError draw (Interaction.commonCoins t) (o j))) then .ok ()
        else .error .macCheckFailed, (o i).clearWaiting)) fun i => (t i).tail.tail.tail := by
  have hset : ∀ i, (set (o i).clearWaiting : Action (Opener T) Unit).run.run (o i) =
      .done (.ok (), (o i).clearWaiting) := fun _ => rfl
  refine Accord.thenDo (Accord.of_done (fun i => Action.run_get (o i)) t) ?_
  simp only [h, ↓reduceIte]
  refine Accord.thenDo (Accord.of_done hset t)
    (Accord.thenDo (Accord.interaction (Interaction.tossCoins_together hcap hn t) _) ?_)
  exact World.Together.bind (checkZero_verdict hcap hn "MAC check"
    (fun i => waitingError draw (Interaction.commonCoins t) (o i)) _) (World.Together.pure _ _)

theorem check_accord (hcap : capacity ≠ some 0) (hn : n < wordRange)
    (hkey : ∀ i, Element.isCanonical (key i)) (hk : ∀ i, (o i).keyShare = key i)
    (w : List (Sharing T key)) (hw : ∀ i, (o i).waitingValues.zip (o i).waitingMacs =
      w.map fun s => (s.secret, (s.share i).mac))
    {count : Nat} (hcount : ∀ i, (o i).waiting = count) (t : Fin n → Tape) :
    ∃ t', Accord capacity (fun i => check (Player.numbered i)) o t (fun _ => ())
      (fun i => (o i).clearWaiting) t' := by
  by_cases hzero : count = 0
  · refine ⟨t, Accord.bind_done (fun i => Action.run_get (o i)) ?_⟩
    simp only [hcount, hzero, ↓reduceIte]
    simp only [fun i => clearWaiting_of_waiting_eq_zero ((hcount i).trans hzero)]
    exact Accord.pure _ _ t
  · let g := Interaction.commonCoins t
    let s : Fin w.length → Sharing T key := w.get
    have hlanes : ∀ {β : Type} (f : Sharing T key → β),
        w.map f = List.ofFn fun k => f (s k) := fun f => by
      conv_lhs => rw [← List.ofFn_get w, List.map_ofFn]
      rfl
    have hdraw := Modular.random_canonical (T := T)
    have herror : ∀ i, waitingError MacElement.random g (o i) =
        (Sharing.combined hkey hdraw s g).error i := by
      intro i
      rw [waitingError, hw i, hk i, List.map_map, List.map_map, hlanes, hlanes]
      rfl
    have hwaiting : ∀ i, (o i).waiting ≠ 0 := fun i => (hcount i).symm ▸ hzero
    have hverdict := checkWith_verdict hcap hn MacElement.random hwaiting t
    simp only [checkWith_random, g, herror, (Sharing.combined hkey hdraw s g).isZero_error hkey,
      ↓reduceIte] at hverdict
    exact ⟨_, hverdict⟩

end Opener

end AuthShares
