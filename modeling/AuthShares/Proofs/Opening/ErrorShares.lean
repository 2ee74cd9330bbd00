import AuthShares.Proofs.Agreement.Reveals
import AuthShares.Proofs.Opening.Batches

/-!
# The shares of an error

A check opens the shares of an error and adds them up. Its own share a player computes from what
waits, and those of the others it takes as they are decoded, once they match what was committed to.
So another player that follows the protocol but for its share can open whatever it likes.
-/

set_option autoImplicit false

namespace AuthShares

open Interaction (tossCoins commitThenOpen)

variable {n : Nat} {capacity : Option Nat} {T : Type}

theorem Action.lift_bind {σ α β : Type} (m : Interaction α) (f : α → Interaction β) :
    (liftM (m >>= f) : Action σ β) = liftM m >>= fun a => liftM (f a) := by
  funext s
  show (m.run.bind _).bind _ = (m.run.bind _).bind _
  rw [Protocol.bind_bind, Protocol.bind_bind]
  congr 1
  funext r
  cases r <;> rfl

/-- The values of all parties, with one's own among them and each of the others as it was decoded
from the last message that came from there. -/
structure Opened {α : Type} [Wire α] (i : Fin n) (phase : String) (own : α) (log : List Deed)
    (values : List α) : Prop where
  length : values.length = n
  own : values[i.val]? = some own
  received : ∃ before after, log = before ++ after ∧ ∀ k : Fin n, k ≠ i →
    ∃ bs value, ∃ nonce : Bytes32, heardFrom k after = [bs] ∧
      decodeListOf (phase ++ " open") 1 bs = .ok [(value, nonce)] ∧ values[k.val]? = some value

theorem Succeeds.of_commitThenOpen {α : Type} [Wire α] {i : Fin n} {phase : String} {own : α}
    {t t' : Tape} {log : List Deed} {values : List α}
    (h : Succeeds (commitThenOpen (Player.numbered i) phase own) t log values t') :
    Opened i phase own log values := by
  rw [Interaction.commitThenOpen_eq, Interaction.openWith_eq] at h
  obtain ⟨⟨commitments, openings⟩, l, l', u, rfl, hopened, hrest⟩ := h.of_bind
  obtain ⟨l₁, l₂, l₃, rfl, hcommitments, -, hopenings⟩ :=
    hopened.of_opened (Interaction.gives_pure own t)
  obtain ⟨_, l₄, l₅, u', rfl, hcheck, hdone⟩ := hrest.of_bind
  obtain ⟨rfl, rfl, rfl⟩ := hdone.of_pure
  obtain ⟨rfl, heq⟩ := Trail.of_done hcheck
  have hvalues : checkOpenings i 0 (commitments.zip openings) = .ok values := by
    injection congrArg Runner.program heq.symm
  obtain ⟨hlength, hget⟩ := checkOpenings_zip hcommitments.length hopenings.length hvalues
  obtain ⟨c, hown, rfl, hheard⟩ := hopenings.singletons
  have hvalue : ∀ k : Fin n, values[k.val]? = some (c k).1 := fun k => by
    obtain ⟨-, -, v, r, vs, -, hopening, hk, -⟩ := hget k
    have hck : [c k] = (v, r) :: vs := by simpa using hopening
    rw [List.cons.inj hck |>.1]
    exact hk
  refine ⟨hlength, (hvalue i).trans (by rw [hown]), l₁ ++ l₂, l₃, by simp, fun k hki => ?_⟩
  obtain ⟨bs, hbs, hdecode⟩ := hheard k hki
  exact ⟨bs, (c k).1, (c k).2, hbs, hdecode, hvalue k⟩

theorem Opened.append {α : Type} [Wire α] {i : Fin n} {phase : String} {own : α}
    {log : List Deed} {values : List α} (h : Opened i phase own log values) (l : List Deed) :
    Opened i phase own (l ++ log) values := by
  obtain ⟨before, after, rfl, hreceived⟩ := h.received
  exact ⟨h.length, h.own, l ++ before, after, by simp, hreceived⟩

theorem Trail.of_interaction {σ α β : Type} {m : Interaction α} {f : α → Action σ β} {s s' : σ}
    {b : β} {t t' : Tape} {log : List Deed}
    (h : Trail (.start ((liftM m >>= f).run.run s) t) log (.start (.done (.ok b, s')) t')) :
    ∃ a l l' u, log = l ++ l' ∧ Succeeds m t l a u ∧
      Trail (.start ((f a).run.run s) u) l' (.start (.done (.ok b, s')) t') := by
  obtain ⟨⟨r, s₁⟩, l, l', u, rfl, hm, hf⟩ :=
    Trail.of_bind (p := (liftM m : Action σ α).run.run s) h
  obtain ⟨r', l₁, l₂, u', rfl, hr, hdone⟩ := Trail.of_bind (p := m.run) hm
  obtain ⟨rfl, heq⟩ := Trail.of_done hdone
  cases heq
  rw [List.append_nil]
  cases r with
  | ok a => exact ⟨a, l₁, l', _, rfl, hr, hf⟩
  | error e =>
    obtain ⟨-, heq⟩ := Trail.of_done hf
    cases heq

namespace Opener

variable [MacElement T] [Wire T]

def openErrors (player : Player) : Action (Opener T) (List T) := do
  let o ← getThe (Opener T)
  if o.waiting = 0 then
    return []
  else
    set o.clearWaiting
    let generator ← tossCoins player
    commitThenOpen player "MAC check" (waitingError MacElement.random generator o)

theorem openErrors_run {o : Opener T} (h : o.waiting ≠ 0) (player : Player) :
    (openErrors player).run.run o = (do
      let generator ← tossCoins player
      commitThenOpen player "MAC check" (waitingError MacElement.random generator o) :
        Action (Opener T) (List T)).run.run o.clearWaiting := by
  show (if o.waiting = 0 then _ else _ : Action (Opener T) (List T)).run.run o = _
  rw [if_neg h]
  rfl

def judge (shares : List T) : Interaction Unit :=
  if MacElement.isZero (Element.total shares) then return () else throw .macCheckFailed

omit [Wire T] in
theorem judge_nil [Modular T] : judge ([] : List T) = pure () := by
  refine if_pos ((Modular.isZero_iff _).mpr ?_)
  show Modular.rep (0 : T) = 0
  rw [Modular.zero_eq, Modular.rep_ofNat, Nat.zero_mod]

theorem check_eq [Modular T] (player : Player) : check (T := T) player = (do
    let shares ← openErrors player
    judge shares) := by
  rw [← checkWith_random]
  simp only [checkWith, openErrors, checkZero, bind_assoc]
  congr 1
  funext o
  split
  · rw [pure_bind, judge_nil]
    rfl
  · simp only [bind_assoc, ← Action.lift_bind]
    rfl

def Receives (i : Fin n) (o : Opener T) (log : List Deed)
    (shares : List T) : Prop :=
  o.waiting = 0 ∧ shares = [] ∨
    ∃ g, Opened i "MAC check" (waitingError MacElement.random g o) log shares

theorem receives_of_openErrors {i : Fin n} {o o' : Opener T} {t t' : Tape}
    {log : List Deed} {shares : List T}
    (h : Trail (.start ((openErrors (Player.numbered i)).run.run o) t) log
      (.start (.done (.ok shares, o')) t')) : o.Receives i log shares := by
  by_cases hw : o.waiting = 0
  · have hrun : (openErrors (Player.numbered i)).run.run o = .done (.ok [], o) := by
      show (if o.waiting = 0 then _ else _ : Action (Opener T) (List T)).run.run o = _
      rw [if_pos hw]
      rfl
    rw [hrun] at h
    obtain ⟨-, heq⟩ := h.of_done
    cases heq
    exact .inl ⟨hw, rfl⟩
  · rw [openErrors_run hw, ← Action.lift_bind, ← bind_pure (liftM _)] at h
    obtain ⟨_, l, l', u, rfl, hshares, hdone⟩ := h.of_interaction
    obtain ⟨rfl, heq⟩ := Trail.of_done hdone
    cases heq
    obtain ⟨g, l₁, l₂, u', rfl, -, hopen⟩ := hshares.of_bind
    rw [List.append_nil]
    exact .inr ⟨g, hopen.of_commitThenOpen.append l₁⟩

def openInstead (player : Player) (share : T) : Action (Opener T) (List T) := do
  let _ ← tossCoins player
  commitThenOpen player "MAC check" share

def openAmong (i : Fin n) (share : Fin n → T) (j : Fin n) : Action (Opener T) (List T) :=
  if j = i then openErrors (Player.numbered j) else openInstead (Player.numbered j) (share j)

/-- Whatever shares the others choose, all players come to these. -/
theorem openAmong_accord [LawfulWire T] (hcap : capacity ≠ some 0) (hn : n < wordRange) {i : Fin n}
    {o : Fin n → Opener T} (hw : (o i).waiting ≠ 0) {t : Fin n → Tape} (share : Fin n → T)
    (hi : share i = waitingError MacElement.random (Interaction.commonCoins t) (o i)) :
    ∃ o', Accord capacity (openAmong i share) o t (fun _ => List.ofFn share) o'
      fun j => (t j).tail.tail.tail := by
  -- all players do the same, but for what they have and what they open
  let value (j : Fin n) (g : Generator) : T :=
    if j = i then waitingError MacElement.random g (o i) else share j
  let left (j : Fin n) : Opener T := if j = i then (o j).clearWaiting else o j
  have hrun : ∀ j, (openAmong i share j).run.run (o j) = (do
      let generator ← tossCoins (Player.numbered j)
      commitThenOpen (Player.numbered j) "MAC check" (value j generator) :
        Action (Opener T) (List T)).run.run (left j) := by
    intro j
    by_cases hj : j = i
    · subst hj
      simp only [openAmong, ↓reduceIte, value, left]
      exact openErrors_run hw _
    · simp only [openAmong, if_neg hj, value, left]
      rfl
  have hvalue : (fun j => value j (Interaction.commonCoins t)) = share := by
    funext j
    by_cases hj : j = i
    · subst hj
      simp only [↓reduceIte, value, hi]
    · simp only [if_neg hj, value]
  have hopen := Interaction.commitThenOpen_together hcap hn "MAC check"
    (fun j => value j (Interaction.commonCoins t)) fun j => (t j).tail.tail
  rw [hvalue] at hopen
  refine ⟨left, ?_⟩
  unfold Accord
  simp only [hrun]
  exact (Accord.interaction (Interaction.tossCoins_together hcap hn t) left).bind
    (Accord.interaction hopen left)

end Opener

end AuthShares
