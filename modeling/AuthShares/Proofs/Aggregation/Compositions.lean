import AuthShares.Aggregation.Aggregator
import AuthShares.Proofs.Network.Outcomes

/-!
# What sums are composed of

Whatever the topology, a sum over all players packs values, passes messages and takes over values
from messages, and of its own values it only looks at how many they are. So what holds of these
parts, and of all actions that are composed of actions it holds of, holds of every sum. What a
message makes of the values is what a sum makes of them, as far as it can be repeated.
-/

set_option autoImplicit false

namespace AuthShares

variable {T : Type}

namespace Summation

section

def Changes (R : List T → List T → Prop) {α : Type} (m : Action (Summation T) α) : Prop :=
  ∀ s x, (m.run.run s).Returns x → R s.values x.2.values

variable {R : List T → List T → Prop} {α β : Type}

theorem Changes.of_returns {m : Action (Summation T) α} (hrefl : ∀ xs, R xs xs)
    (h : ∀ s x, (m.run.run s).Returns x → x.2.values = s.values) : Changes R m :=
  fun s x hx => h s x hx ▸ hrefl _

theorem Changes.bind {m : Action (Summation T) α} {f : α → Action (Summation T) β}
    (htrans : ∀ xs ys zs, R xs ys → R ys zs → R xs zs) (hm : Changes R m)
    (hf : ∀ a, Changes R (f a)) : Changes R (m >>= f) := by
  intro s x hx
  obtain ⟨⟨r, u⟩, hu, hr⟩ := (Protocol.returns_bind (m.run.run s) _ x).mp hx
  cases r with
  | ok a => exact htrans _ _ _ (hm s _ hu) (hf a u x hr)
  | error e =>
    cases hr
    exact hm s _ hu

theorem Changes.ofReadResult (hrefl : ∀ xs, R xs xs) (r : Except ReadError α) :
    Changes R (Action.ofReadResult r : Action (Summation T) α) :=
  .of_returns hrefl fun s x hx => by
    cases r with
    | ok a =>
      cases hx
      rfl
    | error e =>
      cases hx
      rfl

end

variable [Element T]

theorem run_absorb (combine : Combine) (lengths : List (Option Nat)) (start stop : Nat)
    (message : Bytes) (s : Summation T) :
    (absorb combine lengths start stop message).run.run s =
      (Action.ofReadResult
        (Message.absorbRange combine lengths start stop s.values message).1).run.run
        { s with values := (Message.absorbRange combine lengths start stop s.values message).2 } :=
  rfl

/-- A property of the parts of a sum with these declared lengths, and of all that is composed of
parts with it. -/
structure Compositional (lengths : List (Option Nat))
    (P : ∀ α : Type, Action (Summation T) α → Prop) : Prop where
  pure {α : Type} (a : α) : P α (Pure.pure a)
  bind {α β : Type} {m : Action (Summation T) α} {f : α → Action (Summation T) β} (hm : P α m)
    (hf : ∀ a, P β (f a)) : P β (m >>= f)
  /-- Of the values, only their number is looked at. -/
  size {α : Type} {f : Summation T → Action (Summation T) α}
    (heq : ∀ s s', s.values.length = s'.values.length → f s = f s') (hf : ∀ s, P α (f s)) :
    P α (getThe (Summation T) >>= f)
  link {α : Type} (m : Link α) : P α (liftM m)
  ofReadResult {α : Type} (r : Except ReadError α) : P α (Action.ofReadResult r)
  pack (start stop : Nat) : P Bytes (pack lengths start stop)
  absorb (combine : Combine) (start stop : Nat) (message : Bytes) :
    P Unit (absorb combine lengths start stop message)

namespace Compositional

variable {lengths : List (Option Nat)} {P : ∀ α : Type, Action (Summation T) α → Prop}

section

variable (h : Compositional lengths P)
include h

theorem packAll : P Bytes (packAll lengths) :=
  h.size (fun _ _ hlen => by rw [hlen]) fun s => h.pack 0 s.values.length

theorem absorbAll (combine : Combine) (message : Bytes) :
    P Unit (absorbAll combine lengths message) :=
  h.size (fun _ _ hlen => by rw [hlen]) fun s => h.absorb combine 0 s.values.length message

theorem absorbEach (combine : Combine) (messages : List Bytes) :
    P Unit (absorbEach combine lengths messages) := by
  induction messages with
  | nil => exact h.pure ()
  | cons message rest ih => exact h.bind (h.absorbAll combine message) fun _ => ih

theorem reduceUp (player : Player) (root : Nat) (rounds : List TreeRound) :
    P Unit (reduceUp player root lengths rounds) := by
  induction rounds with
  | nil => exact h.pure ()
  | cons round rest ih =>
    refine h.bind ?_ fun _ => ih
    unfold reduceRound
    split
    · exact h.bind h.packAll fun message => h.link _
    · exact h.bind (h.link _) fun messages => h.absorbEach .add messages
    · exact h.pure ()

theorem tellDown (player : Player) (root fanOut : Nat) :
    P Unit (tellDown player root fanOut lengths) := by
  refine h.bind ?_ fun message => h.link _
  unfold hearDown
  by_cases hroot : player.relative root = 0
  · simp only [hroot, ↓reduceIte]
    exact h.packAll
  · simp only [hroot, ↓reduceIte]
    exact h.bind (h.link _) fun message => h.bind (h.absorbAll .replace message) fun _ => h.pure _

theorem followStep (player : Player) (combine : Combine) (step : Step) :
    P Unit (followStep player combine lengths step) :=
  h.size (fun _ _ hlen => by rw [hlen]) fun _ => h.bind (h.pack _ _) fun _ =>
    h.bind (h.link _) fun received => h.absorb combine _ _ received

theorem follow (player : Player) (combine : Combine) (steps : List Step) :
    P Unit (follow player combine lengths steps) := by
  induction steps with
  | nil => exact h.pure ()
  | cons step rest ih => exact h.bind (h.followStep player combine step) fun _ => ih

theorem direct (player : Player) : P Unit (direct player lengths) :=
  h.bind (h.ofReadResult _) fun _ => h.bind h.packAll fun _ => h.bind (h.link _)
    fun _ => h.bind (h.link _) fun messages => h.absorbEach .add messages

end

theorem exchange (h : ∀ lengths, Compositional lengths P) (a : Aggregator) (player : Player)
    (lengths : List (Option Nat)) : P Unit (Aggregator.exchange a player lengths) := by
  refine (h lengths).size (fun _ _ hlen => by rw [hlen]) fun s => ?_
  -- which lengths count depends on the number of values
  have hused := h (Aggregator.usedLengths s.values.length lengths)
  refine hused.bind (hused.ofReadResult _) fun _ => ?_
  split
  · exact hused.bind (hused.reduceUp player _ _) fun _ => hused.tellDown player _ _
  · exact hused.bind (hused.follow player .add _) fun _ => hused.follow player .replace _
  · exact hused.bind (hused.follow player .add _) fun _ => hused.follow player .replace _

end Compositional

/-- It is enough to know what a message makes of the values. -/
theorem Changes.compositional {R : List T → List T → Prop} (hrefl : ∀ xs, R xs xs)
    (htrans : ∀ xs ys zs, R xs ys → R ys zs → R xs zs)
    {lengths : List (Option Nat)} (habsorb : ∀ combine start stop xs message,
      R xs (Message.absorbRange combine lengths start stop xs message).2) :
    Compositional lengths fun _ => Changes (T := T) R where
  pure a := .of_returns hrefl fun s x hx => by
    cases hx
    rfl
  bind := .bind htrans
  size _ hf := .bind htrans (.of_returns hrefl fun s x hx => by
    cases hx
    rfl) hf
  link m := .of_returns hrefl fun s x hx => by
    obtain ⟨r, -, hr⟩ := (Protocol.returns_bind (Interaction.ofLink m).run _ x).mp hx
    cases hr
    rfl
  ofReadResult := .ofReadResult hrefl
  pack start stop := .of_returns hrefl fun s x hx => by
    cases hx
    rfl
  absorb combine start stop message s x hx := by
    rw [run_absorb] at hx
    exact htrans _ _ _ (habsorb combine start stop s.values message)
      (Changes.ofReadResult hrefl _ _ x hx)

end Summation

end AuthShares
