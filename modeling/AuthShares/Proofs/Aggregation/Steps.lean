import AuthShares.Proofs.Aggregation.Contributions
import AuthShares.Proofs.Numbering
import AuthShares.Proofs.Network.Together

/-!
# Steps around a circle

In one step every party sends a message to the party some places ahead and takes in the
message of the party as many places behind. Those that receive first take their
message from one that sends first; so no party waits for one that waits for it, and the
messages of a step are all used up before the next one.
-/

set_option autoImplicit false

namespace AuthShares

variable {n : Nat} {capacity : Option Nat}

/-- The steps of all parties go the same way, `ahead` places on. Everyone expects the block
that the party behind it sends, and nobody receives first from a party that does so too. -/
structure Matched (step : Fin n → Step) (ahead : Nat) : Prop where
  pos : 0 < ahead
  lt : ahead < n
  target (i : Fin n) : (step i).target = onward i ahead
  source (i : Fin n) : (step i).source = onward i (n - ahead)
  first (i : Fin n) : (step i).sendFirst = false →
    (step (onward i (n - ahead))).sendFirst = true
  block (i : Fin n) : (step (onward i (n - ahead))).sendBlock = (step i).receiveBlock
  block_lt (i : Fin n) : (step i).receiveBlock < n

/-- What a step does to the sets of inputs, given block by block: those of the block that
everyone expects change, by the sets at the party behind. -/
structure Passes (combine : Combine) (step : Fin n → Step) (ahead : Nat)
    (C C' : Fin n → Nat → Finset (Fin n)) : Prop extends Matched step ahead where
  disjoint (i : Fin n) : combine = .add →
    Disjoint (C i (step i).receiveBlock) (C (onward i (n - ahead)) (step i).receiveBlock)
  next (i : Fin n) (b : Nat) (hb : b < n) : C' i b = if b = (step i).receiveBlock then
    combine.who (C i b) (C (onward i (n - ahead)) b) else C i b

namespace World

variable {ahead : Nat} {β : Type} {m : Fin n → Bytes}
  {p p' : Fin n → Protocol (Except ChannelError β)} {q q' : Queues n}

theorem onward_eq_iff (hlt : ahead < n) {a b : Fin n} :
    a = onward b (n - ahead) ↔ b = onward a ahead := by
  constructor
  · rintro rfl
    exact (onward_onward (by omega) b).symm
  · rintro rfl
    exact (onward_onward (by omega) a).symm

theorem leads_ahead (hcap : capacity ≠ some 0) (hpos : 0 < ahead) (hlt : ahead < n)
    (S : Finset (Fin n)) (f : Fin n → Unit → Link β) (t : Fin n → Tape)
    (hp : ∀ i ∈ S, p i = (Link.send (onward i ahead) openingPhase (m i) >>= f i).run)
    (hq : ∀ i ∈ S, q i (onward i ahead) = [])
    (hp' : ∀ i, p' i = if i ∈ S then (f i ()).run else p i)
    (hq' : ∀ a b, q' a b = if a ∈ S ∧ b = onward a ahead then [m a] else q a b) :
    ∃ k, Leads capacity k (start p t q) (start p' t q') := by
  refine leads_scatters hcap S (fun _ => .atOnce) (fun _ => openingPhase)
    (fun i => [(onward i ahead).val]) (fun i _ => m i) (fun i => Link.after (f i)) p p' t q q'
    (fun i hi => ?_) (by simp) (fun i _ => by simpa [Fin.val_inj] using onward_ne hpos hlt i)
    (fun i hi b hb => ?_) hp' fun a b => ?_
  · rw [hp i hi, Link.run_send]
    rfl
  · obtain rfl : b = onward i ahead := by simpa [Fin.val_inj] using hb
    exact hq i hi
  · rw [hq' a b]
    by_cases h : a ∈ S ∧ b = onward a ahead
    · obtain ⟨ha, rfl⟩ := h
      simp [ha, hq a ha]
    · have h' : ¬ (a ∈ S ∧ b.val ∈ [(onward a ahead).val]) := by simpa [Fin.val_inj] using h
      rw [if_neg h, if_neg h']

theorem leads_behind (capacity : Option Nat) (hpos : 0 < ahead) (hlt : ahead < n)
    (S : Finset (Fin n)) (f : Fin n → Bytes → Link β) (t : Fin n → Tape)
    (hp : ∀ i ∈ S, p i = (Link.receive (onward i (n - ahead)) openingPhase >>= f i).run)
    (hq : ∀ i ∈ S, q (onward i (n - ahead)) i = [m (onward i (n - ahead))])
    (hp' : ∀ i, p' i = if i ∈ S then (f i (m (onward i (n - ahead)))).run else p i)
    (hq' : ∀ a b, q' a b = if b ∈ S ∧ b = onward a ahead then [] else q a b) :
    ∃ k, Leads capacity k (start p t q) (start p' t q') := by
  refine leads_gathers capacity S (fun _ => .atOnce) (fun _ => openingPhase)
    (fun i => [(onward i (n - ahead)).val]) (fun i _ => m (onward i (n - ahead)))
    (fun _ _ => .ok ())
    (fun i r => Link.after (f i) (r.map fun messages : List Bytes => messages.headD []))
    p p' t q q' (fun i hi => ?_) (by simp)
    (fun i _ => by simpa [Fin.val_inj] using onward_ne (by omega) (by omega) i)
    (fun i hi a ha => ?_) (fun _ _ _ _ => rfl) hp' fun a b => ?_
  · rw [hp i hi, Link.run_receive]
  · obtain rfl : a = onward i (n - ahead) := by simpa [Fin.val_inj] using ha
    exact ⟨[], hq i hi⟩
  · rw [hq' a b]
    by_cases h : b ∈ S ∧ b = onward a ahead
    · obtain ⟨hb, he⟩ := h
      obtain rfl := (onward_eq_iff hlt).mpr he
      simp [hb, hq b hb, he.symm]
    · have h' : ¬ (b ∈ S ∧ a.val ∈ [(onward b (n - ahead)).val]) := by
        simpa [Fin.val_inj, onward_eq_iff hlt] using h
      rw [if_neg h, if_neg h']

end World

namespace Summation

open World

variable {step : Fin n → Step} {ahead : Nat}

def senders (step : Fin n → Step) : Finset (Fin n) :=
  Finset.univ.filter fun i => (step i).sendFirst = true

theorem mem_senders {i : Fin n} : i ∈ senders step ↔ (step i).sendFirst = true := by
  simp [senders]

theorem behind_mem_senders (h : Matched step ahead) {i : Fin n}
    (hi : i ∉ senders step) : onward i (n - ahead) ∈ senders step := by
  rw [mem_senders] at hi ⊢
  exact h.first i (by simpa using hi)

/-- Midway those that send first wait for a message, and the others have theirs but have
not sent yet. -/
def midway (step : Fin n → Step) (ahead : Nat) (m : Fin n → Bytes) (i : Fin n) :
    Protocol (Except ChannelError Bytes) :=
  if i ∈ senders step then (Link.receive (onward i (n - ahead)) openingPhase).run
  else (do
    Link.send (onward i ahead) openingPhase (m i)
    return m (onward i (n - ahead)) : Link Bytes).run

def underway (step : Fin n → Step) (ahead : Nat) (m : Fin n → Bytes) : Queues n := fun a b =>
  if a ∈ senders step ∧ b ∈ senders step ∧ b = onward a ahead then [m a] else []

theorem leads_midway (hcap : capacity ≠ some 0) (h : Matched step ahead) (m : Fin n → Bytes)
    (t : Fin n → Tape) :
    ∃ k, Leads capacity k (start (fun i => (trade (step i) (m i)).run) t .empty)
      (start (midway step ahead m) t (underway step ahead m)) := by
  let F := senders step
  let sending : Fin n → Bytes → Link Bytes := fun i received => do
    Link.send (onward i ahead) openingPhase (m i)
    return received
  let hearing : Fin n → Link Bytes := fun i =>
    Link.receive (onward i (n - ahead)) openingPhase
  let p₁ : Fin n → Protocol (Except ChannelError Bytes) := fun i =>
    if i ∈ F then (hearing i).run else (trade (step i) (m i)).run
  let q₁ : Queues n := fun a b => if a ∈ F ∧ b = onward a ahead then [m a] else []
  have hback : ∀ i : Fin n, onward (onward i (n - ahead)) ahead = i :=
    fun i => onward_onward (by have := h.lt; omega) i
  obtain ⟨k₁, h₁⟩ : ∃ k, Leads capacity k (start (fun i => (trade (step i) (m i)).run) t .empty)
      (start p₁ t q₁) := by
    refine leads_ahead hcap h.pos h.lt F (fun i _ => hearing i) t (fun i hi => ?_)
      (fun _ _ => rfl) (fun _ => rfl) fun _ _ => rfl
    rw [trade, if_pos (mem_senders.mp hi), h.target, h.source]
  obtain ⟨k₂, h₂⟩ : ∃ k, Leads capacity k (start p₁ t q₁)
      (start (midway step ahead m) t (underway step ahead m)) := by
    refine leads_behind capacity h.pos h.lt Fᶜ sending t (m := m) (fun i hi => ?_) (fun i hi => ?_)
      (fun i => ?_) fun a b => ?_
    · have hi' : i ∉ F := Finset.mem_compl.mp hi
      have hfirst : ¬ (step i).sendFirst = true := fun hs => hi' (mem_senders.mpr hs)
      simp only [p₁, if_neg hi', trade, if_neg hfirst, h.source, h.target, sending]
    · exact if_pos ⟨behind_mem_senders h (Finset.mem_compl.mp hi), (hback i).symm⟩
    · by_cases hi : i ∈ F <;> simp [p₁, midway, F, hi, hearing, sending]
    · by_cases hb : b ∈ F
      · simp [q₁, underway, F, hb]
      · simpa [q₁, underway, F, hb] using fun hab _ => hab
  exact ⟨k₁ + k₂, h₁.trans h₂⟩

theorem midway_leads (hcap : capacity ≠ some 0) (h : Matched step ahead) (m : Fin n → Bytes)
    (t : Fin n → Tape) :
    ∃ k, Leads capacity k (start (midway step ahead m) t (underway step ahead m))
      (start (fun i => .done (.ok (m (onward i (n - ahead))))) t .empty) := by
  let F := senders step
  let p₃ : Fin n → Protocol (Except ChannelError Bytes) := fun i =>
    if i ∈ F then midway step ahead m i else .done (.ok (m (onward i (n - ahead))))
  let q₃ : Queues n := fun a b => if b ∈ F ∧ b = onward a ahead then [m a] else []
  obtain ⟨k₃, h₃⟩ : ∃ k, Leads capacity k (start (midway step ahead m) t (underway step ahead m))
      (start p₃ t q₃) := by
    refine leads_ahead hcap h.pos h.lt Fᶜ
      (fun i _ => (return m (onward i (n - ahead)) : Link Bytes)) t (m := m) (fun i hi => ?_)
      (fun i hi => ?_) (fun i => ?_) fun a b => ?_
    · exact if_neg (Finset.mem_compl.mp hi)
    · exact if_neg fun hi' => Finset.mem_compl.mp hi hi'.1
    · by_cases hi : i ∈ F
      · simp [p₃, hi]
      · simp [p₃, hi]
        rfl
    · by_cases ha : a ∈ F
      · simp [underway, q₃, F, ha]
      · -- the party ahead receives first from one that sends first, so it is another one
        by_cases hab : b = onward a ahead
        · have hb : b ∈ F := by
            by_contra hb
            exact ha ((onward_eq_iff h.lt).mpr hab ▸ behind_mem_senders h hb)
          simp [q₃, ha, hab, hab ▸ hb]
        · simp [underway, q₃, hab]
  obtain ⟨k₄, h₄⟩ : ∃ k, Leads capacity k (start p₃ t q₃)
      (start (fun i => .done (.ok (m (onward i (n - ahead))))) t .empty) := by
    refine leads_behind capacity h.pos h.lt F (fun _ received => (return received : Link Bytes)) t
      (m := m) (fun i hi => ?_) (fun i hi => ?_) (fun i => ?_) fun a b => ?_
    · rw [bind_pure]
      exact (if_pos hi).trans (if_pos hi)
    · have hback := onward_onward (a := n - ahead) (b := ahead) (by have := h.lt; omega) i
      exact if_pos ⟨hi, hback.symm⟩
    · by_cases hi : i ∈ F
      · rw [if_pos hi]
        rfl
      · simp only [p₃, if_neg hi]
    · by_cases hb : b ∈ F ∧ b = onward a ahead <;> simp [q₃, hb, Queues.empty]
  exact ⟨k₃ + k₄, h₃.trans h₄⟩

theorem trade_together (hcap : capacity ≠ some 0) (h : Matched step ahead) (m : Fin n → Bytes)
    (t : Fin n → Tape) :
    Together capacity (fun i => (trade (step i) (m i)).run) t
      (fun i => .ok (m (onward i (n - ahead)))) t := by
  obtain ⟨k, hk⟩ := leads_midway hcap h m t
  obtain ⟨l, hl⟩ := midway_leads hcap h m t
  exact ⟨k + l, hk.trans hl⟩

def blockOf (players size k : Nat) : Nat :=
  if size / players = 0 then players - 1 else min (k / (size / players)) (players - 1)

theorem blockOf_lt {players : Nat} (h : 0 < players) (size k : Nat) :
    blockOf players size k < players := by
  unfold blockOf
  split <;> omega

theorem blockStart_le_blockStop {b players size : Nat} (h : b < players) :
    blockStart b players size ≤ blockStop b players size := by
  have hs : players * (size / players) ≤ size := Nat.mul_div_le size players
  have hb : b * (size / players) ≤ players * (size / players) :=
    Nat.mul_le_mul_right _ h.le
  unfold blockStop blockStart
  generalize size / players = width at *
  split <;> omega

theorem blockStop_le {b players size : Nat} (h : b < players) :
    blockStop b players size ≤ size := by
  have hs : players * (size / players) ≤ size := Nat.mul_div_le size players
  have hb : (b + 1) * (size / players) ≤ players * (size / players) :=
    Nat.mul_le_mul_right _ h
  rw [Nat.succ_mul] at hb
  unfold blockStop blockStart
  generalize size / players = width at *
  split <;> omega

theorem mem_block_iff {b players size k : Nat} (hb : b < players) (hk : k < size) :
    blockStart b players size ≤ k ∧ k < blockStop b players size ↔
      b = blockOf players size k := by
  unfold blockStop blockStart blockOf
  generalize size / players = width
  by_cases hw : width = 0
  · rw [if_pos hw, hw]
    split <;> omega
  · have hlow : b * width ≤ k ↔ b ≤ k / width := (Nat.le_div_iff_mul_le (by omega)).symm
    have hhigh : k < b * width + width ↔ k / width < b + 1 := by
      rw [Nat.div_lt_iff_lt_mul (by omega), Nat.succ_mul]
    rw [if_neg hw]
    split
    · rw [hlow]
      generalize k / width = d
      omega
    · rw [hlow, hhigh]
      generalize k / width = d
      omega

section Values

variable {T : Type} [Element T] {m : Nat} {lengths : List (Option Nat)} {combine : Combine}

/-- After a step every party has combined its values, in the block it expected, with those that
the party behind it sent. -/
theorem followStep_values (combine : Combine) (hcap : capacity ≠ some 0) (h : Matched step ahead)
    {s : Fin n → Summation T} (hlen : ∀ i, (s i).values.length = m)
    (hsend : ∀ i, ∀ k < m, Element.Sendable (lengths.getD k none) ((s i).values.getD k 0))
    (t : Fin n → Tape) :
    ∃ s', Accord capacity (fun i => followStep (Player.numbered i) combine lengths (step i)) s t
        (fun _ => ()) s' t ∧
      ∀ i, (s' i).values.length = m ∧ ∀ k < m, (s' i).values.getD k 0 =
        if blockOf n m k = (step i).receiveBlock then
          combine.apply ((s i).values.getD k 0) (Element.arrival (lengths.getD k none)
            ((s (onward i (n - ahead))).values.getD k 0))
        else (s i).values.getD k 0 := by
  let packet : Fin n → Bytes := fun i => Message.encodeRange lengths
    (blockStart (step i).sendBlock n m) (blockStop (step i).sendBlock n m) (s i).values
  have habs := fun i => run_absorb_values combine (s := { s i with packed := packet i })
    (hlen i) (hlen (onward i (n - ahead))) (blockStart_le_blockStop (h.block_lt i))
    (blockStop_le (h.block_lt i)) (hsend (onward i (n - ahead)))
  choose zs hrun hzs hget using habs
  refine ⟨fun i => ⟨packet i, zs i⟩, ?_, fun i => ⟨hzs i, fun k hk => ?_⟩⟩
  · refine Accord.bind_done (fun i => Action.run_get (s i)) ?_
    simp only [hlen]
    refine Accord.bind_done (fun i => run_pack _ _ _ (s i)) ?_
    refine (Accord.link (trade_together hcap h packet t) _).bind (Accord.of_done (fun i => ?_) t)
    simp only [packet, h.block i]
    exact hrun i
  · rw [hget i k hk]
    exact if_congr ((mem_block_iff (h.block_lt i) hk).trans eq_comm) rfl rfl

theorem follow_run {step : Nat → Fin n → Step} {P : Nat → (Fin n → Summation T) → Prop}
    (first count : Nat)
    (h : ∀ r, first ≤ r → r < first + count → ∀ s, P r s → ∀ t, ∃ s', Accord capacity
      (fun i => followStep (Player.numbered i) combine lengths (step r i)) s t (fun _ => ()) s' t ∧
        P (r + 1) s')
    {s : Fin n → Summation T} (hs : P first s) (t : Fin n → Tape) :
    ∃ s', Accord capacity (fun i => follow (Player.numbered i) combine lengths
        ((List.range' first count).map fun r => step r i)) s t (fun _ => ()) s' t ∧
      P (first + count) s' := by
  induction count generalizing first s with
  | zero => exact ⟨s, Accord.pure _ s t, hs⟩
  | succ count ih =>
    obtain ⟨u, hu, hus⟩ := h first le_rfl (by omega) s hs t
    obtain ⟨v, hv, hvs⟩ := ih (first + 1) (fun r hr hlt => h r (by omega) (by omega)) hus
    refine ⟨v, ?_, ?_⟩
    · simp only [List.range'_succ, List.map_cons, follow]
      exact hu.bind hv
    · rwa [Nat.add_right_comm] at hvs

end Values

variable {T : Type} [MacElement T] [Modular T] {q : Nat → Nat} {m : Nat} {x : Fin n → List T}
  {lengths : List (Option Nat)}

/-- After a step every party holds, in the block it expected, what the party behind it sent. -/
theorem followStep_accord (hcap : capacity ≠ some 0) (f : Faithful T lengths q m x)
    {combine : Combine} {C C' : Fin n → Nat → Finset (Fin n)} (h : Passes combine step ahead C C')
    {s : Fin n → Summation T}
    (hs : ∀ i, Shows q m x (s i).values fun k => C i (blockOf n m k)) (t : Fin n → Tape) :
    ∃ s', Accord capacity (fun i => followStep (Player.numbered i) combine lengths (step i)) s t
        (fun _ => ()) s' t ∧
      ∀ i, Shows q m x (s' i).values fun k => C' i (blockOf n m k) := by
  obtain ⟨s', hacc, hs'⟩ := followStep_values combine hcap h.toMatched
    (fun i => (hs i).length) (fun i k hk => f.sendable k hk _ ((hs i).canonical k)) t
  refine ⟨s', hacc, fun i => ?_⟩
  obtain ⟨hlen, hget⟩ := hs' i
  refine (hs i).combined f (hs (onward i (n - ahead))) combine hlen
    (fun k => blockOf n m k = (step i).receiveBlock) hget (fun hc k _ hb => ?_) fun k _ => ?_
  · rw [hb]
    exact h.disjoint i hc
  · exact h.next i _ (blockOf_lt i.pos m k)

theorem follow_accord (hcap : capacity ≠ some 0) (f : Faithful T lengths q m x)
    {combine : Combine} {step : Nat → Fin n → Step} {ahead : Nat → Nat}
    {C : Nat → Fin n → Nat → Finset (Fin n)} (first count : Nat)
    (h : ∀ r, first ≤ r → r < first + count →
      Passes combine (step r) (ahead r) (C r) (C (r + 1)))
    {s : Fin n → Summation T}
    (hs : ∀ i, Shows q m x (s i).values fun k => C first i (blockOf n m k))
    (t : Fin n → Tape) :
    ∃ s', Accord capacity (fun i => follow (Player.numbered i) combine lengths
        ((List.range' first count).map fun r => step r i)) s t (fun _ => ()) s' t ∧
      ∀ i, Shows q m x (s' i).values fun k => C (first + count) i (blockOf n m k) :=
  follow_run (P := fun r s => ∀ i, Shows q m x (s i).values fun k => C r i (blockOf n m k))
    first count (fun r hr hlt _ hs t => followStep_accord hcap f (h r hr hlt) hs t) hs t

end Summation

end AuthShares
