import AuthShares.Proofs.Network.Confluence
import Mathlib.Data.Fintype.Basic

/-!
# Programs carried out together

Some parties hand over the messages of a scatter, or take in those of a gather, one
party after the other: this is one run out of many, made of moves that go well, and so
it decides all runs. A collective of programs that starts from empty queues and leaves
them empty can be followed by another one, whose programs depend on the values of the
first.
-/

set_option autoImplicit false

namespace AuthShares

variable {n : Nat} {α β : Type} {capacity : Option Nat}

namespace Group

def sending (done rest : List Nat) (m : Nat → Bytes) : Group :=
  (done.map fun target => (.outgoing target (m target), .done [])) ++
    rest.map fun target => (.outgoing target (m target), .fresh)

def hearing (done rest : List Nat) (m : Nat → Bytes) : Group :=
  (done.map fun source => (.incoming source, .done (m source))) ++
    rest.map fun source => (.incoming source, .fresh)

theorem messages_map_done {γ : Type} (xs : List γ) (part : γ → Part) (bs : γ → Bytes) :
    messages? (xs.map fun x => (part x, .done (bs x))) = some (xs.map bs) := by
  induction xs with
  | nil => rfl
  | cons x xs ih =>
    unfold messages? at ih ⊢
    rw [List.map_cons, List.mapM_cons, ih]
    rfl

theorem sending_clean {done rest : List Nat} (m : Nat → Bytes) (h : (done ++ rest).Nodup) :
    (sending done rest m).Clean := by
  constructor
  · simpa [peers, sending, Function.comp_def] using h
  · intro k part e hk
    have := List.mem_of_getElem? hk
    simp [sending] at this

theorem hearing_clean {done rest : List Nat} (m : Nat → Bytes) (h : (done ++ rest).Nodup) :
    (hearing done rest m).Clean := by
  constructor
  · simpa [peers, hearing, Function.comp_def] using h
  · intro k part e hk
    have := List.mem_of_getElem? hk
    simp [hearing] at this

theorem sending_outcome {done : List Nat} (m : Nat → Bytes) (h : done.Nodup)
    (settlement : Settlement) :
    (sending done [] m).outcome? settlement = some (.ok (done.map fun _ => [])) := by
  rw [outcome?, (sending_clean m (by simpa using h)).fault_eq_none, sending, List.map_nil,
    List.append_nil, messages_map_done]
  rfl

theorem hearing_outcome {done : List Nat} (m : Nat → Bytes) (h : done.Nodup)
    (settlement : Settlement) :
    (hearing done [] m).outcome? settlement = some (.ok (done.map m)) := by
  rw [outcome?, (hearing_clean m (by simpa using h)).fault_eq_none, hearing, List.map_nil,
    List.append_nil, messages_map_done]
  rfl

theorem sending_fresh (done : List Nat) (target : Nat) (rest : List Nat) (m : Nat → Bytes) :
    (sending done (target :: rest) m)[done.length]? =
      some (.outgoing target (m target), .fresh) := by
  simp [sending]

theorem sending_set (done : List Nat) (target : Nat) (rest : List Nat) (m : Nat → Bytes) :
    List.set (sending done (target :: rest) m) done.length
      (.outgoing target (m target), .done []) = sending (done ++ [target]) rest m := by
  simp [sending]

theorem hearing_fresh (done : List Nat) (source : Nat) (rest : List Nat) (m : Nat → Bytes) :
    (hearing done (source :: rest) m)[done.length]? = some (.incoming source, .fresh) := by
  simp [hearing]

theorem hearing_set (done : List Nat) (source : Nat) (rest : List Nat) (m : Nat → Bytes) :
    List.set (hearing done (source :: rest) m) done.length
      (.incoming source, .done (m source)) = hearing (done ++ [source]) rest m := by
  simp [hearing]

end Group

theorem hasPlace_nil (h : capacity ≠ some 0) : hasPlace capacity [] = true := by
  cases capacity with
  | none => rfl
  | some most =>
    have : most ≠ 0 := fun h' => h (h' ▸ rfl)
    simp only [hasPlace, List.length_nil, decide_eq_true_eq]
    omega

namespace Queues

def send (q : Queues n) (me : Fin n) (targets : List Nat) (m : Nat → Bytes) : Queues n :=
  fun s t => if s = me ∧ t.val ∈ targets then q s t ++ [m t] else q s t

def hear (q : Queues n) (me : Fin n) (sources : List Nat) : Queues n :=
  fun s t => if t = me ∧ s.val ∈ sources then (q s t).tail else q s t

theorem send_cons (q : Queues n) (me target : Fin n) (rest : List Nat) (m : Nat → Bytes)
    (h : target.val ∉ rest) :
    (q.push me target (m target)).send me rest m = q.send me (target.val :: rest) m := by
  funext s t
  by_cases hs : s = me <;> by_cases ht : t = target
  · subst ht
    simp [send, push, hs, h]
  · have htv : t.val ≠ target.val := fun he => ht (Fin.ext he)
    simp [send, push, hs, ht, htv]
  · simp [send, push, hs]
  · simp [send, push, hs]

theorem hear_cons (q : Queues n) (source me : Fin n) (rest : List Nat) (h : source.val ∉ rest) :
    (q.pop source me).hear me rest = q.hear me (source.val :: rest) := by
  funext s t
  by_cases ht : t = me <;> by_cases hs : s = source
  · subst hs
    simp [hear, pop, ht, h]
  · have hsv : s.val ≠ source.val := fun he => hs (Fin.ext he)
    simp [hear, pop, ht, hs, hsv]
  · simp [hear, pop, ht]
  · simp [hear, pop, ht]

end Queues

namespace World

variable {w : World n α} {i : Fin n} {settlement : Settlement} {phase : String}

theorem advance_settle (capacity : Option Nat) {r : Runner α} (hw : w.runners i = r)
    (hd : ∀ next, r.program ≠ .draw next) {k : Nat} {part : Part} {x : Stage} {q : Queues n}
    (hg : r.group[k]? = some (part, .fresh))
    (hs : Settled capacity i r.program.phase r.program.accept w.queues part x q) {g : Group}
    (hset : List.set r.group k (part, x) = g) (hc : g.Clean) :
    Advance capacity w i (.settle k)
      ⟨Function.update w.runners i { r with group := g }, q⟩ := by
  subst hw hset
  refine ⟨move_eq_some_iff.mpr ⟨_, q, Runner.move_settle_eq_some_iff.mpr
    ⟨part, x, ?_, hg, settlePart_eq_some_iff.mpr hs, rfl⟩, rfl⟩, fun _ => by simpa using hc⟩
  exact Option.isNone_iff_eq_none.mpr (Runner.next_eq_none hd (hc.of_set hg) hg)

theorem advance_goOn (capacity : Option Nat) {r : Runner α} (h : (w.runners i).next? = some r) :
    Advance capacity w i .goOn ⟨Function.update w.runners i r, w.queues⟩ :=
  ⟨move_eq_some_iff.mpr ⟨r, _, Runner.move_goOn_eq_some_iff.mpr ⟨h, rfl⟩, rfl⟩,
    fun h => absurd rfl h⟩

/-- A party can hand over the messages of a scatter that are left, if the queues for them
are empty. -/
theorem leads_sending (hcap : capacity ≠ some 0) (m : Nat → Bytes)
    (next : Except ChannelError Unit → Protocol α) (tape : Tape) (done rest : List Nat)
    (hn : (done ++ rest).Nodup) (hr : ∀ t ∈ rest, t < n ∧ t ≠ i)
    (hw : w.runners i = ⟨.scatter settlement phase
      ((done ++ rest).map fun target => (target, m target)) next,
      .sending done rest m, tape⟩)
    (hq : ∀ t : Fin n, t.val ∈ rest → w.queues i t = []) :
    ∃ k, Leads capacity k w ⟨Function.update w.runners i (.start (next (.ok ())) tape),
      w.queues.send i rest m⟩ := by
  induction rest generalizing done w with
  | nil =>
    have hs : w.queues.send i [] m = w.queues := by
      funext s t
      simp [Queues.send]
    rw [hs]
    refine ⟨1, .cons (advance_goOn capacity ?_) (.nil _)⟩
    rw [hw, Runner.next?]
    simp only [Group.sending_outcome m (by simpa using hn)]
    rfl
  | cons target rest ih =>
    obtain ⟨ht, hne⟩ := hr target (by simp)
    have hn' : ((done ++ [target]) ++ rest).Nodup := by simpa using hn
    have hnr : target ∉ rest := (List.nodup_cons.mp (List.nodup_append.mp hn).2.1).1
    have hroom : hasPlace capacity (w.queues i ⟨target, ht⟩) = true := by
      rw [hq ⟨target, ht⟩ (by simp)]
      exact hasPlace_nil hcap
    have hadv := advance_settle capacity hw (fun _ => by simp)
      (Group.sending_fresh done target rest m)
      (.sent ⟨target, ht⟩ (m target) (fun h => hne (congrArg Fin.val h)) hroom)
      (Group.sending_set done target rest m) (Group.sending_clean m hn')
    have hqr : ∀ t : Fin n, t.val ∈ rest →
        w.queues.push i ⟨target, ht⟩ (m target) i t = [] := by
      intro t h
      have hne' : ¬ (i = i ∧ t = ⟨target, ht⟩) := by
        rintro ⟨-, rfl⟩
        exact hnr h
      rw [Queues.push_of_ne _ hne']
      exact hq t (by simp [h])
    obtain ⟨k, hk⟩ := ih
      (w := ⟨Function.update w.runners i _, w.queues.push i ⟨target, ht⟩ (m target)⟩)
      (done ++ [target]) hn' (fun t h => hr t (by simp [h]))
      ((Function.update_self ..).trans (by rw [List.append_assoc, List.singleton_append])) hqr
    refine ⟨k + 1, .cons hadv ?_⟩
    simpa [Queues.send_cons _ _ ⟨target, ht⟩ _ _ hnr] using hk

/-- A party can take in the messages of a gather that are left, if they are in the queues
and will be accepted. -/
theorem leads_hearing (capacity : Option Nat) (m : Nat → Bytes)
    (accept : Bytes → Except ChannelError Unit)
    (next : Except ChannelError (List Bytes) → Protocol α) (tape : Tape) (done rest : List Nat)
    (hn : (done ++ rest).Nodup) (hr : ∀ s ∈ rest, s < n ∧ s ≠ i)
    (hw : w.runners i = ⟨.gather settlement phase (done ++ rest) accept next,
      .hearing done rest m, tape⟩)
    (hq : ∀ s : Fin n, s.val ∈ rest → ∃ later, w.queues s i = m s :: later)
    (ha : ∀ s ∈ rest, accept (m s) = .ok ()) :
    ∃ k, Leads capacity k w
      ⟨Function.update w.runners i (.start (next (.ok ((done ++ rest).map m))) tape),
        w.queues.hear i rest⟩ := by
  induction rest generalizing done w with
  | nil =>
    have hs : w.queues.hear i [] = w.queues := by
      funext s t
      simp [Queues.hear]
    rw [hs]
    refine ⟨1, .cons (advance_goOn capacity ?_) (.nil _)⟩
    rw [hw, Runner.next?]
    simp only [Group.hearing_outcome m (by simpa using hn), List.append_nil]
    rfl
  | cons source rest ih =>
    obtain ⟨hs, hne⟩ := hr source (by simp)
    have hn' : ((done ++ [source]) ++ rest).Nodup := by simpa using hn
    have hnr : source ∉ rest := (List.nodup_cons.mp (List.nodup_append.mp hn).2.1).1
    obtain ⟨later, hl⟩ := hq ⟨source, hs⟩ (by simp)
    have hx : Stage.ofMessage accept (m source) = .done (m source) := by
      rw [Stage.ofMessage, ha source (by simp)]
    have hset : Settled capacity i phase accept w.queues _ _ _ :=
      .heard ⟨source, hs⟩ (m source) later (fun h => hne (congrArg Fin.val h)) hl
    rw [hx] at hset
    have hadv := advance_settle capacity hw (fun _ => by simp)
      (Group.hearing_fresh done source rest m) hset
      (Group.hearing_set done source rest m) (Group.hearing_clean m hn')
    have hqr : ∀ s : Fin n, s.val ∈ rest →
        ∃ later, w.queues.pop ⟨source, hs⟩ i s i = m s :: later := by
      intro s h
      have hne' : ¬ (s = ⟨source, hs⟩ ∧ i = i) := by
        rintro ⟨rfl, -⟩
        exact hnr h
      rw [Queues.pop_of_ne _ hne']
      exact hq s (by simp [h])
    obtain ⟨k, hk⟩ := ih (w := ⟨Function.update w.runners i _, w.queues.pop ⟨source, hs⟩ i⟩)
      (done ++ [source]) hn' (fun t h => hr t (by simp [h]))
      ((Function.update_self ..).trans (by rw [List.append_assoc, List.singleton_append])) hqr
      (fun s h => ha s (by simp [h]))
    refine ⟨k + 1, .cons hadv ?_⟩
    simpa [Queues.hear_cons _ ⟨source, hs⟩ _ _ hnr] using hk

theorem start_update (p : Fin n → Protocol α) (t : Fin n → Tape) (q q' : Queues n) (i : Fin n)
    (p' : Protocol α) :
    (⟨Function.update (start p t q).runners i (.start p' (t i)), q'⟩ : World n α) =
      start (Function.update p i p') t q' := by
  unfold start
  congr 1
  funext j
  by_cases h : j = i
  · subst h
    simp
  · simp [h]

theorem leads_scatter (hcap : capacity ≠ some 0) (m : Nat → Bytes) (targets : List Nat)
    (next : Except ChannelError Unit → Protocol α) (p : Fin n → Protocol α) (t : Fin n → Tape)
    (q : Queues n)
    (hp : p i = .scatter settlement phase (targets.map fun target => (target, m target)) next)
    (hn : targets.Nodup) (hr : ∀ x ∈ targets, x < n ∧ x ≠ i)
    (hq : ∀ x : Fin n, x.val ∈ targets → q i x = []) :
    ∃ k, Leads capacity k (start p t q)
      (start (Function.update p i (next (.ok ()))) t (q.send i targets m)) := by
  have hw : (start p t q).runners i = ⟨.scatter settlement phase
      (([] ++ targets).map fun target => (target, m target)) next,
      .sending [] targets m, t i⟩ := by
    simp [start, Runner.start, hp, Protocol.parts, Group.ofMessages, Group.sending]
  obtain ⟨k, hk⟩ := leads_sending hcap m next (t i) [] targets (by simpa using hn) hr hw hq
  rw [start_update] at hk
  exact ⟨k, hk⟩

theorem leads_gather (capacity : Option Nat) (m : Nat → Bytes) (sources : List Nat)
    (accept : Bytes → Except ChannelError Unit)
    (next : Except ChannelError (List Bytes) → Protocol α) (p : Fin n → Protocol α)
    (t : Fin n → Tape) (q : Queues n) (hp : p i = .gather settlement phase sources accept next)
    (hn : sources.Nodup) (hr : ∀ x ∈ sources, x < n ∧ x ≠ i)
    (hq : ∀ x : Fin n, x.val ∈ sources → ∃ later, q x i = m x :: later)
    (ha : ∀ x ∈ sources, accept (m x) = .ok ()) :
    ∃ k, Leads capacity k (start p t q)
      (start (Function.update p i (next (.ok (sources.map m)))) t (q.hear i sources)) := by
  have hw : (start p t q).runners i = ⟨.gather settlement phase ([] ++ sources) accept next,
      .hearing [] sources m, t i⟩ := by
    simp [start, Runner.start, hp, Protocol.parts, Group.ofSources, Group.hearing]
  obtain ⟨k, hk⟩ := leads_hearing capacity m accept next (t i) [] sources (by simpa using hn) hr
    hw hq ha
  rw [start_update] at hk
  exact ⟨k, hk⟩

theorem leads_draw (capacity : Option Nat) (next : Bytes32 → Protocol α)
    (p : Fin n → Protocol α) (t : Fin n → Tape) (q : Queues n) (hp : p i = .draw next) :
    Leads capacity 1 (start p t q)
      (start (Function.update p i (next (t i 0))) (Function.update t i (t i).tail) q) := by
  have hadv := advance_goOn capacity (w := start p t q) (i := i)
    (r := .start (next (t i 0)) (t i).tail) (by simp [start, Runner.start, Runner.next?, hp])
  have hu : (⟨Function.update (start p t q).runners i (.start (next (t i 0)) (t i).tail), q⟩ :
      World n α) =
      start (Function.update p i (next (t i 0))) (Function.update t i (t i).tail) q := by
    unfold start
    congr 1
    funext j
    by_cases h : j = i
    · subst h
      simp
    · simp [h]
  exact .cons (hu ▸ hadv) (.nil _)

/-- What each party of `S` can do on its own, whatever the others of `S` have done before,
all of them can do one after the other. -/
theorem leads_each (capacity : Option Nat) (S : Finset (Fin n)) (p p' : Fin n → Protocol α)
    (t t' : Fin n → Tape) (q : Finset (Fin n) → Queues n)
    (h : ∀ i ∈ S, ∀ R ⊆ S, i ∉ R → ∃ k, Leads capacity k
      (start (fun j => if j ∈ R then p' j else p j) (fun j => if j ∈ R then t' j else t j) (q R))
      (start (Function.update (fun j => if j ∈ R then p' j else p j) i (p' i))
        (Function.update (fun j => if j ∈ R then t' j else t j) i (t' i)) (q (insert i R)))) :
    ∃ k, Leads capacity k (start p t (q ∅))
      (start (fun j => if j ∈ S then p' j else p j) (fun j => if j ∈ S then t' j else t j)
        (q S)) := by
  induction S using Finset.induction_on with
  | empty => exact ⟨0, by simpa using .nil _⟩
  | insert i S hi ih =>
    obtain ⟨k, hk⟩ := ih fun j hj R hR =>
      h j (Finset.mem_insert_of_mem hj) R (hR.trans (Finset.subset_insert i S))
    obtain ⟨l, hl⟩ := h i (Finset.mem_insert_self i S) S (Finset.subset_insert i S) hi
    have hp : Function.update (fun j => if j ∈ S then p' j else p j) i (p' i) =
        fun j => if j ∈ insert i S then p' j else p j := by
      funext j
      by_cases hj : j = i
      · subst hj
        simp
      · simp [hj]
    have ht : Function.update (fun j => if j ∈ S then t' j else t j) i (t' i) =
        fun j => if j ∈ insert i S then t' j else t j := by
      funext j
      by_cases hj : j = i
      · subst hj
        simp
      · simp [hj]
    rw [hp, ht] at hl
    exact ⟨k + l, hk.trans hl⟩

theorem leads_scatters (hcap : capacity ≠ some 0) (S : Finset (Fin n))
    (settlement : Fin n → Settlement) (phase : Fin n → String) (targets : Fin n → List Nat)
    (m : Fin n → Nat → Bytes) (next : Fin n → Except ChannelError Unit → Protocol α)
    (p p' : Fin n → Protocol α) (t : Fin n → Tape) (q q' : Queues n)
    (hp : ∀ i ∈ S, p i = .scatter (settlement i) (phase i)
      ((targets i).map fun target => (target, m i target)) (next i))
    (hn : ∀ i ∈ S, (targets i).Nodup) (hr : ∀ i ∈ S, ∀ x ∈ targets i, x < n ∧ x ≠ i)
    (hq : ∀ i ∈ S, ∀ x : Fin n, x.val ∈ targets i → q i x = [])
    (hp' : ∀ i, p' i = if i ∈ S then next i (.ok ()) else p i)
    (hq' : ∀ a b, q' a b = if a ∈ S ∧ b.val ∈ targets a then q a b ++ [m a b] else q a b) :
    ∃ k, Leads capacity k (start p t q) (start p' t q') := by
  have hstep := leads_each capacity S p (fun i => next i (.ok ())) t t
    (fun R a b => if a ∈ R ∧ b.val ∈ targets a then q a b ++ [m a b] else q a b)
  simp only [ite_self, Finset.notMem_empty, false_and, if_false] at hstep
  rw [funext hp', show q' = _ from funext fun a => funext fun b => hq' a b]
  refine hstep fun i hi R _ hiR => ?_
  obtain ⟨k, hk⟩ := leads_scatter hcap (m i) (targets i) (next i)
    (fun j => if j ∈ R then next j (.ok ()) else p j) t
    (fun a b => if a ∈ R ∧ b.val ∈ targets a then q a b ++ [m a b] else q a b)
    (by simpa [hiR] using hp i hi) (hn i hi) (hr i hi)
    (fun x hx => by simpa [hiR] using hq i hi x hx)
  refine ⟨k, ?_⟩
  rw [Function.update_eq_self]
  convert hk using 2
  funext a b
  by_cases ha : a = i
  · subst ha
    simp [Queues.send, hiR]
  · simp [Queues.send, ha]

theorem leads_gathers (capacity : Option Nat) (S : Finset (Fin n))
    (settlement : Fin n → Settlement) (phase : Fin n → String) (sources : Fin n → List Nat)
    (m : Fin n → Nat → Bytes) (accept : Fin n → Bytes → Except ChannelError Unit)
    (next : Fin n → Except ChannelError (List Bytes) → Protocol α)
    (p p' : Fin n → Protocol α) (t : Fin n → Tape) (q q' : Queues n)
    (hp : ∀ i ∈ S, p i = .gather (settlement i) (phase i) (sources i) (accept i) (next i))
    (hn : ∀ i ∈ S, (sources i).Nodup) (hr : ∀ i ∈ S, ∀ x ∈ sources i, x < n ∧ x ≠ i)
    (hq : ∀ i ∈ S, ∀ x : Fin n, x.val ∈ sources i → ∃ later, q x i = m i x :: later)
    (ha : ∀ i ∈ S, ∀ x ∈ sources i, accept i (m i x) = .ok ())
    (hp' : ∀ i, p' i = if i ∈ S then next i (.ok ((sources i).map (m i))) else p i)
    (hq' : ∀ a b, q' a b = if b ∈ S ∧ a.val ∈ sources b then (q a b).tail else q a b) :
    ∃ k, Leads capacity k (start p t q) (start p' t q') := by
  have hstep := leads_each capacity S p
    (fun i => next i (.ok ((sources i).map (m i)))) t t
    (fun R a b => if b ∈ R ∧ a.val ∈ sources b then (q a b).tail else q a b)
  simp only [ite_self, Finset.notMem_empty, false_and, if_false] at hstep
  rw [funext hp', show q' = _ from funext fun a => funext fun b => hq' a b]
  refine hstep fun i hi R _ hiR => ?_
  obtain ⟨k, hk⟩ := leads_gather capacity (m i) (sources i) (accept i) (next i)
    (fun j => if j ∈ R then next j (.ok ((sources j).map (m j))) else p j) t
    (fun a b => if b ∈ R ∧ a.val ∈ sources b then (q a b).tail else q a b)
    (by simpa [hiR] using hp i hi) (hn i hi) (hr i hi)
    (fun x hx => by simpa [hiR] using hq i hi x hx) (ha i hi)
  refine ⟨k, ?_⟩
  rw [Function.update_eq_self]
  convert hk using 2
  funext a b
  by_cases hb : b = i
  · subst hb
    simp [Queues.hear, hiR]
  · simp [Queues.hear, hb]

theorem leads_draws (capacity : Option Nat) (next : Fin n → Bytes32 → Protocol α)
    (t : Fin n → Tape) (q : Queues n) :
    ∃ k, Leads capacity k (start (fun i => .draw (next i)) t q)
      (start (fun i => next i (t i 0)) (fun i => (t i).tail) q) := by
  have hstep := leads_each capacity Finset.univ (fun i => .draw (next i))
    (fun i => next i (t i 0)) t (fun i => (t i).tail) (fun _ => q)
  simp only [Finset.mem_univ, if_true] at hstep
  refine hstep fun i _ R _ hiR => ⟨1, ?_⟩
  have h := leads_draw capacity (i := i) (next i)
    (fun j => if j ∈ R then next j (t j 0) else .draw (next j))
    (fun j => if j ∈ R then (t j).tail else t j) q (by simp [hiR])
  simpa [hiR] using h

end World

end AuthShares
