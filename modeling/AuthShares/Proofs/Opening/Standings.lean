import AuthShares.Proofs.Numbering
import AuthShares.Proofs.Opening.Results

/-!
# What is known of a batch

All players carry out the same operations, each with its own shares. From the operations and
from the phase after each of them follows what the values of the batch are: those that are
being collected, the sums of a batch that was exchanged once, or, after another exchange,
something else. What an operation may hand out is a matter of that, and of what an exchange
promises: more if all players move in lockstep than if the network does what it likes.
-/

set_option autoImplicit false

namespace AuthShares

variable {n : Nat} {T : Type}

/-- The shares of all players of one value. They need not be valid. -/
structure Contribution (T : Type) [Element T] (n : Nat) where
  share : Fin n → Share T
  canonical (i : Fin n) : Element.isCanonical (share i).value

abbrev Collection (T : Type) [Element T] (n : Nat) := List (Contribution T n × Option Nat)

def Collection.values [Element T] (b : Collection T n) (i : Fin n) : List T :=
  b.map fun p => (p.1.share i).value

def Collection.full [Element T] (b : List (Contribution T n)) : Collection T n :=
  b.map fun c => (c, none)

inductive Joint (T : Type) [Element T] (n : Nat) where
  | start (count : Nat) (room : hasRoom count (Element.size T) = true)
  | prepare (c : Contribution T n) (len : Option Nat)
  | exchange
  | finish
  | openAll (b : List (Contribution T n))
  | openOne (c : Contribution T n)
  | addToCheck (share : Fin n → Share T) (opened : Fin n → T)
  | check
  | checkIfDue
  | setTopology (field : Config.Field) (k : Nat)

def Joint.run [MacElement T] [Wire T] (i : Fin n) : Joint T n → Action (Opener T) (List T)
  | .start count room => (Operation.start count room).run (Player.numbered i)
  | .prepare c len => (Operation.prepare (c.share i) len).run (Player.numbered i)
  | .exchange => Operation.exchange.run (Player.numbered i)
  | .finish => Operation.finish.run (Player.numbered i)
  | .openAll b => (Operation.openAll (b.map (·.share i))).run (Player.numbered i)
  | .openOne c => (Operation.openOne (c.share i)).run (Player.numbered i)
  | .addToCheck share opened => (Operation.addToCheck (share i) (opened i)).run (Player.numbered i)
  | .check => Operation.check.run (Player.numbered i)
  | .checkIfDue => Operation.checkIfDue.run (Player.numbered i)
  | .setTopology field k => do
    modify (·.setTopology field k)
    return []

abbrev Note (T : Type) := Except Error (List T) × Phase

def noteAll [MacElement T] [Wire T] (i : Fin n) :
    List (Joint T n) → StateT (Opener T) Protocol (List (Note T))
  | [] => return []
  | joint :: rest => do
    let r ← (joint.run i).run
    let o ← getThe (Opener T)
    let notes ← noteAll i rest
    return (r, o.phase) :: notes

/-- What an exchange promises: which values open a batch, and which batches it may fail to sum. -/
structure Promise (T : Type) [Element T] (n : Nat) where
  opens : Collection T n → List T → Prop
  mayFail : Collection T n → Prop
  length {b : Collection T n} {v : List T} : opens b v → v.length = b.length
  nil : opens [] []

def Promise.HandsOut [Element T] (P : Promise T n) (b : Collection T n) (note : Note T) : Prop :=
  (∃ v, note.1 = .ok v ∧ P.opens b v ∧ note.2 = .idle) ∨
    (∃ e, note.1 = .error e) ∧ (note.2 = .exchanged ∨ note.2 = .idle ∧ P.mayFail b)

inductive Standing (T : Type) [Element T] (n : Nat) where
  | collected (b : Collection T n)
  | summed (b : Collection T n)
  | unclear

namespace Standing

variable [Element T]

def prepare (c : Contribution T n) (len : Option Nat) : Standing T n → Standing T n
  | collected b => collected (b ++ [(c, len)])
  | _ => collected [(c, len)]

def exchange : Standing T n → Standing T n
  | collected b => summed b
  | summed [] => summed []
  | _ => unclear

def next (s : Standing T n) (joint : Joint T n) (phase : Phase) : Standing T n :=
  match joint with
  | .start _ _ => collected []
  | .prepare c len => s.prepare c len
  | .exchange => if phase = .idle then collected [] else s.exchange
  | .finish => collected []
  | .openAll b => if phase = .idle then collected [] else summed (.full b)
  | .openOne c => if phase = .idle then collected [] else summed (.full [c])
  | _ => s

def MayFail (P : Promise T n) : Standing T n → Prop
  | collected b => b ≠ [] → P.mayFail b
  | _ => True

/-- What an operation may come to: nothing is handed out for no batch, and values that open it
for one that has been summed. An exchange has summed, or it has failed with an error and left an
idle opener. -/
def Admits (P : Promise T n) (s : Standing T n) (joint : Joint T n) (note : Note T) : Prop :=
  match joint, s with
  | .exchange, s => note.2 = .exchanged ∨ (∃ e, note.1 = .error e) ∧ note.2 = .idle ∧ s.MayFail P
  | .finish, collected b => b = [] → note.1 = .ok []
  | .finish, summed b => ∃ v, note.1 = .ok v ∧ P.opens b v
  | .openAll b, _ => P.HandsOut (.full b) note
  | .openOne c, _ => P.HandsOut (.full [c]) note
  | _, _ => True

def AdmitsAll (P : Promise T n) : Standing T n → List (Joint T n) → List (Note T) → Prop
  | _, [], [] => True
  | s, joint :: rest, note :: notes =>
    s.Admits P joint note ∧ AdmitsAll P (s.next joint note.2) rest notes
  | _, _, _ => False

def Describes (P : Promise T n) (i : Fin n) : Standing T n → Opener T → Prop
  | collected b, o => o.opened = b.values i ∧ (b ≠ [] → o.phase = .accumulating) ∧
      (o.phase = .accumulating → o.lengths = b.map (·.2))
  | summed b, o => o.phase = .exchanged ∧ P.opens b o.opened
  | unclear, o => o.phase = .exchanged

end Standing

open Opener

def Joint.Leaves [Element T] (P : Promise T n) (i : Fin n) (s : Standing T n)
    (o : Opener T) (r : Except Error (List T)) (o' : Opener T) : Joint T n → Prop
  | .start _ _ => o' = o.start
  | .prepare c len => o' = o.prepare (c.share i) len
  | .exchange =>
    LeavesValues (s.MayFail P)
      (fun v => v.length = o.opened.length ∧ ∀ b, s = .collected b → P.opens b v) r o'
  | .finish => r = .ok o.opened ∧ o' = o.finish.2
  | .openAll b => HandedOut (P.mayFail (.full b)) (P.opens (.full b)) r o'
  | .openOne c => HandedOut (P.mayFail (.full [c])) (P.opens (.full [c])) r o'
  | _ => KeepsBatch o o'

namespace Standing

variable [Element T] {P : Promise T n} {i : Fin n} {s : Standing T n}
  {o o' : Opener T} {r : Except Error (List T)}

theorem Describes.of_empty (hphase : o.phase = .idle) (hopened : o.opened = []) :
    (collected [] : Standing T n).Describes P i o :=
  ⟨hopened, fun h => absurd rfl h, fun h => by cases hphase.symm.trans h⟩

theorem Describes.keeps (h : s.Describes P i o) (hkeeps : KeepsBatch o o') :
    s.Describes P i o' := by
  cases s with
  | collected b => exact ⟨hkeeps.opened.trans h.1, fun hb => hkeeps.phase.trans (h.2.1 hb),
      fun hp => hkeeps.lengths.trans (h.2.2 (hkeeps.phase.symm.trans hp))⟩
  | summed b => exact ⟨hkeeps.phase.trans h.1, hkeeps.opened ▸ h.2⟩
  | unclear => exact hkeeps.phase.trans h

theorem Describes.prepare (h : s.Describes P i o) (c : Contribution T n) (len : Option Nat) :
    (s.prepare c len).Describes P i (o.prepare (c.share i) len) := by
  have hsingle : ¬ o.phase = .accumulating →
      (collected [(c, len)] : Standing T n).Describes P i (o.prepare (c.share i) len) := by
    intro hp
    rw [prepare_eq_single hp]
    exact ⟨rfl, fun _ => rfl, fun _ => rfl⟩
  cases s with
  | collected b =>
    by_cases hp : o.phase = .accumulating
    · rw [prepare_eq_append hp]
      exact ⟨by simp [h.1, Collection.values], fun _ => hp, fun _ => by simp [h.2.2 hp]⟩
    · obtain rfl : b = [] := by_contra fun hb => hp (h.2.1 hb)
      exact hsingle hp
  | summed b => exact hsingle fun hp => by cases h.1.symm.trans hp
  | unclear => exact hsingle fun hp => by cases (show o.phase = .exchanged from h).symm.trans hp

theorem Describes.exchange (h : s.Describes P i o) (hphase : o'.phase = .exchanged)
    (hlength : o'.opened.length = o.opened.length)
    (hsums : ∀ b, s = collected b → P.opens b o'.opened) : s.exchange.Describes P i o' := by
  cases s with
  | collected b => exact ⟨hphase, hsums b rfl⟩
  | summed b =>
    cases b with
    | nil =>
      have hopened : o'.opened = [] :=
        List.length_eq_zero_iff.mp (hlength.trans (P.length h.2))
      exact ⟨hphase, hopened ▸ P.nil⟩
    | cons p b => exact hphase
  | unclear => exact hphase

/-- After values were handed out at once nothing is left; after an error of the check that
follows an exchange they are still there. -/
theorem Describes.of_handedOut {b : Collection T n} (h : HandedOut (P.mayFail b) (P.opens b) r o') :
    P.HandsOut b (r, o'.phase) ∧
      (if o'.phase = .idle then collected [] else summed b : Standing T n).Describes P i o' := by
  obtain ⟨v, hr, hv, hphase, hopened⟩ | ⟨hr, ⟨hfail, -, hphase, hopened⟩ | ⟨hphase, hv⟩⟩ := h
  · rw [if_pos hphase]
    exact ⟨.inl ⟨v, hr, hv, hphase⟩, .of_empty hphase hopened⟩
  · rw [if_pos hphase]
    exact ⟨.inr ⟨hr, .inr ⟨hphase, hfail⟩⟩, .of_empty hphase hopened⟩
  · rw [if_neg (by rw [hphase]; decide)]
    exact ⟨.inr ⟨hr, .inl hphase⟩, hphase, hv⟩

/-- An operation comes to what it may come to, and the opener is as it is known to be then. -/
theorem Describes.step (h : s.Describes P i o) {joint : Joint T n}
    (hleaves : joint.Leaves P i s o r o') :
    s.Admits P joint (r, o'.phase) ∧ (s.next joint o'.phase).Describes P i o' := by
  cases joint with
  | start count room =>
    obtain rfl := hleaves
    exact ⟨trivial, rfl, fun hb => absurd rfl hb, fun _ => rfl⟩
  | prepare c len =>
    obtain rfl := hleaves
    exact ⟨trivial, h.prepare c len⟩
  | exchange =>
    obtain ⟨hfail, ⟨e, rfl⟩, hphase, hopened⟩ | ⟨hphase, hlength, hsums⟩ := hleaves
    · refine ⟨.inr ⟨⟨e, rfl⟩, hphase, hfail⟩, ?_⟩
      rw [next, if_pos hphase]
      exact .of_empty hphase hopened
    · refine ⟨.inl hphase, ?_⟩
      rw [next, if_neg (by rw [hphase]; decide)]
      exact h.exchange hphase hlength hsums
  | finish =>
    obtain ⟨rfl, rfl⟩ := hleaves
    refine ⟨?_, .of_empty rfl rfl⟩
    cases s with
    | collected b =>
      rintro rfl
      exact congrArg Except.ok h.1
    | summed b => exact ⟨_, rfl, h.2⟩
    | unclear => trivial
  | openAll b => exact Describes.of_handedOut hleaves
  | openOne c => exact Describes.of_handedOut hleaves
  | addToCheck share opened => exact ⟨trivial, h.keeps hleaves⟩
  | check => exact ⟨trivial, h.keeps hleaves⟩
  | checkIfDue => exact ⟨trivial, h.keeps hleaves⟩
  | setTopology field k => exact ⟨trivial, h.keeps hleaves⟩

end Standing

end AuthShares
