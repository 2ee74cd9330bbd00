import AuthShares.Proofs.Aggregation.Cycles
import Mathlib.Data.Int.GCD
import Mathlib.Tactic.Ring

/-!
# Steps around a circle without buffers

Also where a message is only sent once its receiver takes it, the ring and the star come
to their end, in whatever order parties meet. A party that has its message for a round
met the party behind it in the same round; and the chain of parties that wait for the one
ahead breaks off at every party that receives first.
-/

set_option autoImplicit false

namespace AuthShares

variable {n : Nat}

inductive Half where
  | send (target block : Nat)
  | receive (source block : Nat)
  deriving DecidableEq, Repr

namespace Step

def halves (s : Step) : List Half :=
  if s.sendFirst then [.send s.target s.sendBlock, .receive s.source s.receiveBlock]
  else [.receive s.source s.receiveBlock, .send s.target s.sendBlock]

def sendAt (s : Step) : Nat := if s.sendFirst then 0 else 1

def receiveAt (s : Step) : Nat := if s.sendFirst then 1 else 0

theorem sendAt_add_receiveAt (s : Step) : s.sendAt + s.receiveAt = 1 := by
  unfold sendAt receiveAt
  split <;> rfl

theorem halves_eq_send {s : Step} {h target block : Nat} :
    s.halves[h]? = some (.send target block) ↔
      h = s.sendAt ∧ target = s.target ∧ block = s.sendBlock := by
  unfold halves sendAt
  rcases h with _ | _ | h <;> split <;> simp [eq_comm]

theorem halves_eq_receive {s : Step} {h source block : Nat} :
    s.halves[h]? = some (.receive source block) ↔
      h = s.receiveAt ∧ source = s.source ∧ block = s.receiveBlock := by
  unfold halves receiveAt
  rcases h with _ | _ | h <;> split <;> simp [eq_comm]

theorem length_halves (s : Step) : s.halves.length = 2 := by
  unfold halves
  split <;> rfl

def halvesFrom (r : Nat) : List Step → List (Nat × Half)
  | [] => []
  | s :: rest => s.halves.map (fun half => (r, half)) ++ halvesFrom (r + 1) rest

theorem length_halvesFrom (r : Nat) (steps : List Step) :
    (halvesFrom r steps).length = 2 * steps.length := by
  induction steps generalizing r with
  | nil => rfl
  | cons s rest ih =>
    rw [halvesFrom, List.length_append, List.length_map, length_halves, ih, List.length_cons]
    omega

theorem halvesFrom_eq_some {r c round : Nat} {half : Half} {steps : List Step} :
    (halvesFrom r steps)[c]? = some (round, half) ↔
      ∃ k h s, steps[k]? = some s ∧ s.halves[h]? = some half ∧ c = 2 * k + h ∧ round = r + k := by
  induction steps generalizing r c with
  | nil => simp [halvesFrom]
  | cons s rest ih =>
    have hlen : (s.halves.map fun half => (r, half)).length = 2 := by
      rw [List.length_map, length_halves]
    rw [halvesFrom]
    by_cases hc : c < 2
    · rw [List.getElem?_append_left (by omega), List.getElem?_map]
      constructor
      · intro h
        obtain ⟨half', hhalf, heq⟩ := Option.map_eq_some_iff.mp h
        cases heq
        exact ⟨0, c, s, rfl, hhalf, by omega, rfl⟩
      · rintro ⟨k, h, s', hs, hhalf, rfl, rfl⟩
        obtain rfl : k = 0 := by omega
        obtain rfl : s = s' := by simpa using hs
        simp [hhalf]
    · rw [List.getElem?_append_right (by omega), hlen, ih]
      constructor
      · rintro ⟨k, h, s', hs, hhalf, hc', rfl⟩
        exact ⟨k + 1, h, s', hs, hhalf, by omega, by omega⟩
      · rintro ⟨k, h, s', hs, hhalf, rfl, rfl⟩
        have hh : h < 2 := by
          rw [← length_halves s']
          exact (List.getElem?_eq_some_iff.mp hhalf).1
        obtain ⟨k, rfl⟩ : ∃ l, k = l + 1 := ⟨k - 1, by omega⟩
        exact ⟨k, h, s', by simpa using hs, hhalf, by omega, by omega⟩

end Step

namespace Half

def perform (message : Bytes) : Half → Link Bytes
  | .send target _ => do
    Link.send target openingPhase message
    return []
  | .receive source _ => Link.receive source openingPhase

end Half

/-- Parties trade messages by the operations of their steps. -/
theorem Summation.trade_eq_perform (step : Step) (message : Bytes) :
    trade step message = List.flatten <$> step.halves.mapM (Half.perform message) := by
  unfold trade Step.halves
  split <;> simp [Half.perform]

section Meetings

variable {steps : Fin n → List Step} {c : Fin n → Nat} {p q : Fin n} {k r r' b b' : Nat}

/-- After the operations that are counted, `p` has to send to `q` and `q` to receive from `p`:
in rounds `r` and `r'`, the blocks `b` and `b'`. -/
structure Meets (steps : Fin n → List Step) (c : Fin n → Nat) (p q : Fin n) (r r' b b' : Nat) :
    Prop where
  sends : (Step.halvesFrom 0 (steps p))[c p]? = some (r, .send q b)
  receives : (Step.halvesFrom 0 (steps q))[c q]? = some (r', .receive p b')

def met (c : Fin n → Nat) (p q : Fin n) (i : Fin n) : Nat := if i = p ∨ i = q then c i + 1 else c i

/-- The operations that all parties can have behind them after so many meetings. -/
inductive Meetings (steps : Fin n → List Step) : Nat → (Fin n → Nat) → Prop
  | none : Meetings steps 0 fun _ => 0
  | meet {k : Nat} {c : Fin n → Nat} {p q : Fin n} {r r' b b' : Nat} :
    Meetings steps k c → Meets steps c p q r r' b b' → Meetings steps (k + 1) (met c p q)

/-- In every round parties are matched, and from every party some number of strides leads to
one that receives first. -/
structure Circular (steps : Fin n → List Step) (rounds : Nat) (step : Nat → Fin n → Step)
    (ahead : Nat → Nat) : Prop where
  steps_eq (i : Fin n) : steps i = (List.range rounds).map fun r => step r i
  matched (r : Nat) : r < rounds → Matched (step r) (ahead r)
  broken (r : Nat) : r < rounds → ∀ i, ∃ k, (step r (onward i (k * ahead r))).sendFirst = false

variable {rounds : Nat} {step : Nat → Fin n → Step} {ahead : Nat → Nat}

def Sent (step : Nat → Fin n → Step) (c : Fin n → Nat) (r : Nat) (i : Fin n) : Prop :=
  2 * r + (step r i).sendAt < c i

def Received (step : Nat → Fin n → Step) (c : Fin n → Nat) (r : Nat) (i : Fin n) : Prop :=
  2 * r + (step r i).receiveAt < c i

structure Coupled (rounds : Nat) (step : Nat → Fin n → Step) (ahead : Nat → Nat)
    (c : Fin n → Nat) : Prop where
  le (i : Fin n) : c i ≤ 2 * rounds
  sent_iff (r : Nat) : r < rounds → ∀ i, Sent step c r i ↔ Received step c r (onward i (ahead r))

theorem Circular.meets_iff (h : Circular steps rounds step ahead) :
    Meets steps c p q r r' b b' ↔
      (r < rounds ∧ c p = 2 * r + (step r p).sendAt ∧ q = onward p (ahead r) ∧
        b = (step r p).sendBlock) ∧
      r' < rounds ∧ c q = 2 * r' + (step r' q).receiveAt ∧ p = onward q (n - ahead r') ∧
        b' = (step r' q).receiveBlock := by
  have hstep : ∀ (i : Fin n) (l : Nat) (s : Step),
      (steps i)[l]? = some s ↔ l < rounds ∧ step l i = s := by
    intro i l s
    rw [h.steps_eq, List.getElem?_map, Option.map_eq_some_iff]
    simp [List.getElem?_eq_some_iff]
  constructor
  · rintro ⟨hsends, hreceives⟩
    obtain ⟨l, _, s, hs, hhalf, hcp, hr⟩ := Step.halvesFrom_eq_some.mp hsends
    obtain ⟨l', _, s', hs', hhalf', hcq, hr'⟩ := Step.halvesFrom_eq_some.mp hreceives
    obtain rfl : r = l := by omega
    obtain rfl : r' = l' := by omega
    obtain ⟨hlt, rfl⟩ := (hstep _ _ _).mp hs
    obtain ⟨hlt', rfl⟩ := (hstep _ _ _).mp hs'
    obtain ⟨rfl, htarget, hb⟩ := Step.halves_eq_send.mp hhalf
    obtain ⟨rfl, hsource, hb'⟩ := Step.halves_eq_receive.mp hhalf'
    rw [(h.matched r hlt).target] at htarget
    rw [(h.matched r' hlt').source] at hsource
    exact ⟨⟨hlt, hcp, Fin.ext htarget, hb⟩, hlt', hcq, Fin.ext hsource, hb'⟩
  · rintro ⟨⟨hlt, hcp, hq, hb⟩, hlt', hcq, hp, hb'⟩
    constructor
    · refine Step.halvesFrom_eq_some.mpr ⟨r, _, _, (hstep p r _).mpr ⟨hlt, rfl⟩,
        Step.halves_eq_send.mpr ⟨rfl, ?_, hb⟩, hcp, (Nat.zero_add r).symm⟩
      rw [(h.matched r hlt).target, hq]
    · refine Step.halvesFrom_eq_some.mpr ⟨r', _, _, (hstep q r' _).mpr ⟨hlt', rfl⟩,
        Step.halves_eq_receive.mpr ⟨rfl, ?_, hb'⟩, hcq, (Nat.zero_add r').symm⟩
      rw [(h.matched r' hlt').source, hp]

/-- Parties that meet are in the same round, and it is the same block to both of them. -/
theorem Circular.same_round (h : Circular steps rounds step ahead)
    (hc : Coupled rounds step ahead c) (hmeets : Meets steps c p q r r' b b') :
    r = r' ∧ b = b' := by
  obtain ⟨⟨hr, hcp, hq, rfl⟩, hr', hcq, hp, rfl⟩ := h.meets_iff.mp hmeets
  have hsend := (step r p).sendAt_add_receiveAt
  have hreceive := (step r' q).sendAt_add_receiveAt
  have hq' : q = onward p (ahead r') := (World.onward_eq_iff (h.matched r' hr').lt).mp hp
  have hback := (World.onward_eq_iff (h.matched r hr).lt).mpr hq
  -- the one that is ahead has been through the round of the other, so both have been
  rcases Nat.lt_trichotomy r r' with hlt | rfl | hlt
  · have hreceived : Received step c r q := by
      have := (step r q).sendAt_add_receiveAt
      unfold Received
      omega
    have hsent : Sent step c r p := (hc.sent_iff r hr p).mpr (hq ▸ hreceived)
    unfold Sent at hsent
    omega
  · refine ⟨rfl, ?_⟩
    rw [← (h.matched r hr).block q, ← hp]
  · have hsent : Sent step c r' p := by
      have := (step r' p).sendAt_add_receiveAt
      unfold Sent
      omega
    have hreceived : Received step c r' q := hq' ▸ (hc.sent_iff r' hr' p).mp hsent
    unfold Received at hreceived
    omega

theorem sent_met (hpq : p ≠ q) (hp : c p = 2 * r + (step r p).sendAt)
    (hq : c q = 2 * r + (step r q).receiveAt) (l : Nat) (i : Fin n) :
    Sent step (met c p q) l i ↔ Sent step c l i ∨ i = p ∧ l = r := by
  have hl := (step l i).sendAt_add_receiveAt
  have hr := (step r i).sendAt_add_receiveAt
  unfold Sent met
  by_cases hip : i = p
  · subst hip
    have : l = r → (step l i).sendAt = (step r i).sendAt := fun h => h ▸ rfl
    simp only [true_or, if_true, true_and]
    omega
  · by_cases hiq : i = q
    · subst hiq
      have : l = r → (step l i).sendAt = (step r i).sendAt := fun h => h ▸ rfl
      simp only [hip, or_true, if_true, false_and, or_false]
      omega
    · simp [hip, hiq]

theorem received_met (hpq : p ≠ q) (hp : c p = 2 * r + (step r p).sendAt)
    (hq : c q = 2 * r + (step r q).receiveAt) (l : Nat) (i : Fin n) :
    Received step (met c p q) l i ↔ Received step c l i ∨ i = q ∧ l = r := by
  have hl := (step l i).sendAt_add_receiveAt
  have hr := (step r i).sendAt_add_receiveAt
  unfold Received met
  by_cases hip : i = p
  · subst hip
    have : l = r → (step l i).sendAt = (step r i).sendAt := fun h => h ▸ rfl
    simp only [if_true, hpq, false_and, or_false]
    omega
  · by_cases hiq : i = q
    · subst hiq
      have : l = r → (step l i).sendAt = (step r i).sendAt := fun h => h ▸ rfl
      simp only [or_true, if_true, true_and]
      omega
    · simp [hip, hiq]

theorem Circular.ne_of_meets (h : Circular steps rounds step ahead)
    (hmeets : Meets steps c p q r r' b b') : p ≠ q := by
  obtain ⟨⟨hr, _, hq, _⟩, _⟩ := h.meets_iff.mp hmeets
  have hm := h.matched r hr
  exact fun heq => onward_ne hm.pos hm.lt p (hq.symm.trans heq.symm)

theorem Circular.coupled_met (h : Circular steps rounds step ahead)
    (hc : Coupled rounds step ahead c) (hmeets : Meets steps c p q r r' b b') :
    Coupled rounds step ahead (met c p q) := by
  have hpq := h.ne_of_meets hmeets
  obtain ⟨rfl, -⟩ := h.same_round hc hmeets
  obtain ⟨⟨hr, hcp, hq, -⟩, -, hcq, -, -⟩ := h.meets_iff.mp hmeets
  constructor
  · intro i
    have hi := hc.le i
    have hsend := (step r p).sendAt_add_receiveAt
    have hreceive := (step r q).sendAt_add_receiveAt
    unfold met
    split
    · rename_i hmet
      rcases hmet with rfl | rfl <;> omega
    · exact hi
  · intro l hl i
    rw [sent_met hpq hcp hcq, received_met hpq hcp hcq, hc.sent_iff l hl i]
    refine or_congr_right (and_congr_left fun hlr => ?_)
    subst hlr
    have hlt := (h.matched l hl).lt
    constructor
    · rintro rfl
      exact hq.symm
    · intro hiq
      rw [(World.onward_eq_iff hlt).mpr hiq.symm, (World.onward_eq_iff hlt).mpr hq]

theorem Circular.coupled (h : Circular steps rounds step ahead) (hk : Meetings steps k c) :
    Coupled rounds step ahead c := by
  induction hk with
  | none => exact ⟨fun _ => Nat.zero_le _, fun _ _ _ => by simp [Sent, Received]⟩
  | meet _ hmeets ih => exact h.coupled_met ih hmeets

theorem onward_stride (i : Fin n) (a k : Nat) :
    onward (onward i a) (k * a) = onward i ((k + 1) * a) := by
  refine Fin.ext ?_
  show ((i + a) % n + k * a) % n = (i + (k + 1) * a) % n
  rw [Nat.mod_add_mod, Nat.succ_mul, Nat.add_assoc, Nat.add_comm a]

/-- A party that receives first and still has to is met by the one behind it, which sends
first and still has to. -/
theorem Circular.meets_of_first (h : Circular steps rounds step ahead)
    (hc : Coupled rounds step ahead c) (hr : r < rounds) (hmin : ∀ i, 2 * r ≤ c i)
    (hfirst : (step r q).sendFirst = false) (hq : ¬ Received step c r q) :
    ∃ p q r r' b b', Meets steps c p q r r' b b' := by
  have hm := h.matched r hr
  have hback : onward (onward q (n - ahead r)) (ahead r) = q :=
    ((World.onward_eq_iff hm.lt).mp rfl).symm
  have hp := mt (hc.sent_iff r hr (onward q (n - ahead r))).mp (hback.symm ▸ hq)
  have hmin' := hmin (onward q (n - ahead r))
  refine ⟨onward q (n - ahead r), q, r, r, _, _,
    h.meets_iff.mpr ⟨⟨hr, ?_, hback.symm, rfl⟩, hr, ?_, rfl, rfl⟩⟩
  · simp only [Sent, Step.sendAt, hm.first q hfirst, if_true] at hp ⊢
    omega
  · have := hmin q
    simp only [Received, Step.receiveAt, hfirst, Bool.false_eq_true, if_false] at hq ⊢
    omega

/-- In the earliest round that is not over some parties can meet, since the chain of those
that wait for the party ahead breaks off. -/
theorem Circular.meets_of_not_sent (h : Circular steps rounds step ahead)
    (hc : Coupled rounds step ahead c) (hr : r < rounds) (hmin : ∀ i, 2 * r ≤ c i) (k : Nat)
    (hp : ¬ Sent step c r p) (hk : (step r (onward p ((k + 1) * ahead r))).sendFirst = false) :
    ∃ p q r r' b b', Meets steps c p q r r' b b' := by
  have hm := h.matched r hr
  induction k generalizing p with
  | zero =>
    rw [Nat.zero_add, Nat.one_mul] at hk
    exact h.meets_of_first hc hr hmin hk (mt (hc.sent_iff r hr p).mpr hp)
  | succ k ih =>
    by_cases hwaits : (step r p).sendFirst = false ∧ ¬ Received step c r p
    · exact h.meets_of_first hc hr hmin hwaits.1 hwaits.2
    have hcp : c p = 2 * r + (step r p).sendAt := by
      have := hmin p
      unfold Sent Step.sendAt at hp
      unfold Received Step.receiveAt at hwaits
      unfold Step.sendAt
      cases hs : (step r p).sendFirst <;>
        simp only [hs, if_true, if_false, Bool.false_eq_true, true_and] at hp hwaits ⊢ <;> omega
    have hq := mt (hc.sent_iff r hr p).mpr hp
    generalize hahead : onward p (ahead r) = q at hq
    cases hfirst : (step r q).sendFirst with
    | false => exact h.meets_of_first hc hr hmin hfirst hq
    | true =>
      by_cases hsent : Sent step c r q
      · refine ⟨p, q, r, r, _, _, h.meets_iff.mpr ⟨⟨hr, hcp, hahead.symm, rfl⟩, hr, ?_,
          (World.onward_eq_iff hm.lt).mpr hahead.symm, rfl⟩⟩
        simp only [Sent, Step.sendAt, Received, Step.receiveAt, hfirst, if_true] at hsent hq ⊢
        omega
      · refine ih hsent ?_
        rw [← hahead, onward_stride]
        exact hk

theorem Circular.length_halves (h : Circular steps rounds step ahead) (i : Fin n) :
    (Step.halvesFrom 0 (steps i)).length = 2 * rounds := by
  rw [Step.length_halvesFrom, h.steps_eq, List.length_map, List.length_range]

/-- As long as some party is not done, two can meet. -/
theorem Circular.meets (h : Circular steps rounds step ahead)
    (hc : Coupled rounds step ahead c) {i : Fin n} (hi : c i < 2 * rounds) :
    ∃ p q r r' b b', Meets steps c p q r r' b b' := by
  obtain ⟨j, -, hj⟩ := Finset.exists_min_image Finset.univ c ⟨i, Finset.mem_univ i⟩
  have hji := hj i (Finset.mem_univ i)
  obtain ⟨r, hrj⟩ : ∃ r, r = c j / 2 := ⟨_, rfl⟩
  have hr : r < rounds := by omega
  have hm := h.matched r hr
  have hmin : ∀ i, 2 * r ≤ c i := fun i => by
    have := hj i (Finset.mem_univ i)
    omega
  -- the party that is behind all others still has to send in this round, or to receive
  by_cases hsent : Sent step c r j
  · have hreceived : ¬ Received step c r j := by
      have := (step r j).sendAt_add_receiveAt
      unfold Sent at hsent
      unfold Received
      omega
    have hback : onward (onward j (n - ahead r)) (ahead r) = j :=
      ((World.onward_eq_iff hm.lt).mp rfl).symm
    obtain ⟨k, hk⟩ := h.broken r hr j
    refine h.meets_of_not_sent hc hr hmin k (p := onward j (n - ahead r)) ?_ ?_
    · exact mt (hc.sent_iff r hr _).mp (hback.symm ▸ hreceived)
    · rw [← onward_stride, hback]
      exact hk
  · obtain ⟨k, hk⟩ := h.broken r hr (onward j (ahead r))
    refine h.meets_of_not_sent hc hr hmin k hsent ?_
    rw [← onward_stride]
    exact hk

theorem Circular.sum_eq (h : Circular steps rounds step ahead) (hk : Meetings steps k c) :
    ∑ i, c i = 2 * k := by
  induction hk with
  | none => simp
  | @meet k c p q r r' b b' _ hmeets ih =>
    have hmet : ∀ i, met c p q i = c i + (if i = p then 1 else 0) + if i = q then 1 else 0 := by
      intro i
      have := h.ne_of_meets hmeets
      unfold met
      by_cases hip : i = p
      · subst hip
        simp [this]
      · simp [hip]
        split <;> rfl
    simp only [hmet, Finset.sum_add_distrib, Finset.sum_ite_eq', Finset.mem_univ, if_true, ih]
    omega

/-- In whatever order parties meet, two of them can meet until all are done; and parties only
meet in the same round, about the same block. -/
theorem Circular.completes (h : Circular steps rounds step ahead) (hk : Meetings steps k c) :
    ((∃ i, c i < (Step.halvesFrom 0 (steps i)).length) →
      ∃ p q r r' b b', Meets steps c p q r r' b b') ∧
    (∀ p q r r' b b', Meets steps c p q r r' b b' → r = r' ∧ b = b') ∧
    k ≤ n * rounds ∧
    (k = n * rounds ↔ ∀ i, c i = (Step.halvesFrom 0 (steps i)).length) := by
  have hc := h.coupled hk
  have hsum := h.sum_eq hk
  have htotal : ∑ _i : Fin n, 2 * rounds = 2 * (n * rounds) := by
    rw [Finset.sum_const, Finset.card_univ, Fintype.card_fin, smul_eq_mul, Nat.mul_left_comm]
  have hle := Finset.sum_le_sum fun i (_ : i ∈ Finset.univ) => hc.le i
  simp only [h.length_halves]
  refine ⟨fun ⟨i, hi⟩ => h.meets hc hi, fun _ _ _ _ _ _ hmeets => h.same_round hc hmeets,
    by omega, ?_⟩
  have hall := Finset.sum_eq_sum_iff_of_le fun i (_ : i ∈ Finset.univ) => hc.le i
  simp only [Finset.mem_univ, true_imp_iff] at hall
  rw [← hall]
  omega

end Meetings

def ringStep (n r : Nat) (i : Fin n) : Step :=
  if r < n - 1 then ringReduceStep r i else ringGatherStep (r - (n - 1)) i

theorem ring_circular (hn : 2 ≤ n) :
    Circular (fun i : Fin n => ringReduce i n ++ ringGather i n) (n - 1 + (n - 1)) (ringStep n)
      fun _ => 1 where
  steps_eq i := by
    rw [List.range_add, List.map_append, ringReduce_eq, ringGather_eq, ← List.range_eq_range',
      List.map_map]
    congr 1
    · refine List.map_congr_left fun r hr => ?_
      rw [ringStep, if_pos (List.mem_range.mp hr)]
    · refine List.map_congr_left fun r _ => ?_
      rw [Function.comp_apply, ringStep, if_neg (by omega), Nat.add_sub_cancel_left]
  matched r hr := by
    unfold ringStep
    split
    · exact (ringReduce_passes (by omega)).toMatched
    · exact (ringGather_passes (by omega)).toMatched
  broken r _ i := by
    have hi := i.isLt
    refine ⟨n + 1 - i, ?_⟩
    have hone : (onward i ((n + 1 - i) * 1)).val = 1 := by
      show (i.val + (n + 1 - i) * 1) % n = 1
      rw [Nat.mul_one, show i.val + (n + 1 - i) = 1 + n by omega, Nat.add_mod_right,
        Nat.mod_eq_of_lt (by omega)]
    have hfirst : (ringStep n r (onward i ((n + 1 - i) * 1))).sendFirst =
        ((onward i ((n + 1 - i) * 1)).val % 2 == 0) := by
      unfold ringStep
      split <;> rfl
    rw [hfirst, hone]
    rfl

def starStep (n r : Nat) (i : Fin n) : Step :=
  if r < n - 1 then starReduceStep (r + 1) i else starGatherStep (r - (n - 1) + 1) i

def starAhead (n r : Nat) : Nat := if r < n - 1 then n - (r + 1) else r - (n - 1) + 1

theorem cyclePosition_second {a c : Nat} (ha : 0 < a) (han : a < n) (hc : c < Nat.gcd n a) :
    cyclePosition ((c + a) % n) n a = 1 := by
  have hgle : Nat.gcd n a ≤ a := Nat.gcd_le_right n ha
  have hmod : (c + a) % n % Nat.gcd n a = c := by
    rw [Nat.mod_mod_of_dvd _ (Nat.gcd_dvd_left n a), Nat.add_mod,
      Nat.mod_eq_zero_of_dvd (Nat.gcd_dvd_right n a), Nat.add_zero, Nat.mod_mod,
      Nat.mod_eq_of_lt hc]
  refine cyclePosition_eq (by omega) ?_ fun l hl => ?_
  · rw [hmod, Nat.one_mul]
  · obtain rfl : l = 0 := by omega
    rw [hmod, Nat.zero_mul, Nat.add_zero, Nat.mod_eq_of_lt (by omega),
      mod_of_lt_two_mul (by omega)]
    split <;> omega

theorem exists_mul_modEq_gcd {a : Nat} (ha : 0 < a) (han : a < n) :
    ∃ m, a * m ≡ Nat.gcd n a [MOD n] := by
  have hgcd : Nat.gcd a n < n := (Nat.gcd_le_left n ha).trans_lt han
  obtain ⟨m, -, hm⟩ := Nat.exists_mul_mod_eq_gcd hgcd
  rw [Nat.gcd_comm] at hm
  exact ⟨m, hm.trans (Nat.mod_eq_of_lt (Nat.gcd_comm n a ▸ hgcd)).symm⟩

theorem exists_second {a : Nat} (ha : 0 < a) (han : a < n) (i : Fin n) :
    ∃ k, (onward i (k * a)).val = (i % Nat.gcd n a + a) % n := by
  obtain ⟨m, hstride⟩ := exists_mul_modEq_gcd ha han
  -- a full turn of strides that cover one divisor each undoes the way from the least party
  let q := i.val / Nat.gcd n a
  refine ⟨1 + (n - 1) * q * m, ?_⟩
  have hi : i.val = i % Nat.gcd n a + Nat.gcd n a * q := (Nat.mod_add_div _ _).symm
  have hn : n * q = (n - 1) * q + q := by
    rw [← Nat.succ_mul, Nat.succ_eq_add_one, Nat.sub_add_cancel i.pos]
  generalize i.val % Nat.gcd n a = c at hi
  generalize Nat.gcd n a = g at hi hstride
  calc (i.val + (1 + (n - 1) * q * m) * a) % n
      = (c + g * q + a + (n - 1) * q * (a * m)) % n := by
        rw [hi]
        congr 1
        ring
    _ = (c + g * q + a + (n - 1) * q * g) % n := (hstride.mul_left _).add_left _
    _ = (c + a + n * q * g) % n := by
        rw [hn]
        congr 1
        ring
    _ = (c + a) % n := by rw [Nat.mul_assoc, Nat.add_mul_mod_self_left]

theorem star_circular (hn : 2 ≤ n) :
    Circular (fun i : Fin n => starReduce i n ++ starGather i n) (n - 1 + (n - 1)) (starStep n)
      (starAhead n) where
  steps_eq i := by
    rw [List.range_add, List.map_append, starReduce_eq, starGather_eq, List.range'_eq_map_range,
      List.map_map, List.map_map, List.map_map]
    congr 1
    · refine List.map_congr_left fun r hr => ?_
      rw [starStep, if_pos (List.mem_range.mp hr), Function.comp_apply, Nat.add_comm]
    · refine List.map_congr_left fun r _ => ?_
      rw [Function.comp_apply, Function.comp_apply, starStep, if_neg (by omega),
        Nat.add_sub_cancel_left, Nat.add_comm]
  matched r hr := by
    unfold starStep starAhead
    split
    · exact (starReduce_passes (by omega) (by omega)).toMatched
    · exact (starGather_passes (by omega) (by omega)).toMatched
  broken r hr i := by
    have hpos : 0 < starAhead n r := by
      unfold starAhead
      split <;> omega
    have hlt : starAhead n r < n := by
      unfold starAhead
      split <;> omega
    have hfirst : ∀ j, (starStep n r j).sendFirst = (starColor j n (starAhead n r) == 0) := by
      intro j
      unfold starStep starAhead
      split <;> rfl
    obtain ⟨k, hk⟩ := exists_second hpos hlt i
    refine ⟨k, ?_⟩
    rw [hfirst, starColor, hk, cyclePosition_second hpos hlt
      (Nat.mod_lt _ (Nat.gcd_pos_of_pos_right n hpos))]
    rfl

/-- With sends that wait for their receivers all parties get through the ring and through the
star, in whatever order they meet. -/
theorem meetings_complete (hn : 2 ≤ n) (steps : Fin n → List Step)
    (hsteps : steps = (fun i : Fin n => ringReduce i n ++ ringGather i n) ∨
      steps = fun i : Fin n => starReduce i n ++ starGather i n)
    (k : Nat) (c : Fin n → Nat) (hk : Meetings steps k c) :
    ((∃ i, c i < (Step.halvesFrom 0 (steps i)).length) →
      ∃ p q r r' b b', Meets steps c p q r r' b b') ∧
    (∀ p q r r' b b', Meets steps c p q r r' b b' → r = r' ∧ b = b') ∧
    k ≤ n * (n - 1 + (n - 1)) ∧
    (k = n * (n - 1 + (n - 1)) ↔ ∀ i, c i = (Step.halvesFrom 0 (steps i)).length) := by
  rcases hsteps with rfl | rfl
  · exact (ring_circular hn).completes hk
  · exact (star_circular hn).completes hk

def starSix (i : Fin 6) : List Step := starReduce i 6 ++ starGather i 6

theorem meets_starSix : Meets starSix (fun _ => 0) 0 5 0 0 5 5 := ⟨by decide, by decide⟩

theorem meetings_complete_starSix :
    (∃ p q r r' b b', Meets starSix (met (fun _ => 0) 0 5) p q r r' b b') ∧
    (∀ p q r r' b b', Meets starSix (met (fun _ => 0) 0 5) p q r r' b b' → r = r' ∧ b = b') ∧
    1 ≤ 6 * (6 - 1 + (6 - 1)) ∧
    ¬ ∀ i, met (fun _ => 0) 0 5 i = (Step.halvesFrom 0 (starSix i)).length := by
  obtain ⟨hmeets, hsame, hle, hdone⟩ :=
    meetings_complete (by decide) starSix (.inr rfl) 1 _ (.meet .none meets_starSix)
  exact ⟨hmeets ⟨0, by decide⟩, hsame, hle, mt hdone.mpr (by decide)⟩

end AuthShares
