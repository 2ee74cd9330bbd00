import AuthShares.Proofs.Aggregation.Calls
import AuthShares.Proofs.Opening.Pairings

/-!
# Players at many stations

A player works at any number of stations: it sums, and it opens values of the field and of the
ring. What it has at one station does not depend on what it does at another one. If all players
carry out the same operations at the same stations, one after the other, they get through all of
them together, whatever these come to.
-/

set_option autoImplicit false

namespace AuthShares

variable {n : Nat} {capacity : Option Nat}

def Aggregator.InStep (a : Fin n → Aggregator) : Prop :=
  ∃ b : Aggregator, ∀ i, ∃ packed, a i = { b with packed }

theorem Aggregator.inStep_new (c : Config) : InStep fun _ : Fin n => .ofConfig c :=
  ⟨.ofConfig c, fun _ => ⟨[], rfl⟩⟩

theorem Call.sum_inStep (hcap : capacity ≠ some 0) (hpos : 0 < n) (hn : 2 * n < wordRange)
    {a : Fin n → Aggregator} (h : Aggregator.InStep a) (call : Call n) (t : Fin n → Tape) :
    ∃ a' : Fin n → Aggregator, World.Together capacity
        (fun i => ((call.argument i).sum (Player.numbered i)).run (a i)) t
        (fun i => (.ok call.sums, a' i)) t ∧
      Aggregator.InStep a' := by
  obtain ⟨b, hb⟩ := h
  choose packed hb using hb
  obtain rfl : a = _ := funext hb
  obtain ⟨packed', htog⟩ := call.sum_together hcap hpos hn b packed t
  exact ⟨_, htog, b, fun i => ⟨packed' i, rfl⟩⟩

namespace Opener

variable {T : Type} [MacElement T] [Written T]

def InStep (o : Fin n → Opener T) : Prop :=
  ∃ u, ∃ known : Standing T n, Alike u o ∧ ∀ i, known.Describes .summed i (o i)

theorem inStep_new (mode : ExchangeMode) (c : Config) (key : Fin n → T) :
    InStep fun i => new mode (key i) c :=
  ⟨new mode () c, _, ⟨fun _ => rfl, fun _ _ h => absurd h List.not_mem_nil⟩,
    fun _ => .of_empty rfl rfl⟩

end Opener

theorem Joint.run_inStep {T : Type} [MacElement T] [Written T] [Wire T] [LawfulWire T]
    (hcap : capacity ≠ some 0) (hpos : 0 < n) (hn : 2 * n < wordRange) {o : Fin n → Opener T}
    (h : Opener.InStep o) (joint : Joint T n) (t : Fin n → Tape) :
    ∃ (r : Fin n → Except Error (List T)) (o' : Fin n → Opener T) (t' : Fin n → Tape),
      World.Together capacity (fun i => (joint.run i).run.run (o i)) t
        (fun i => (r i, o' i)) t' ∧
      Opener.InStep o' := by
  obtain ⟨u, known, halike, hknown⟩ := h
  obtain ⟨r, u', o', t', htog, halike', hleaves⟩ :=
    joint.run_alike hcap hpos hn halike hknown t
  have hphase : ∀ i, (o' i).phase = u'.phase := fun i => congrArg Opener.phase (halike'.shape i)
  have hstep := fun i => (hknown i).step (hleaves i)
  simp only [hphase] at hstep
  exact ⟨r, o', t', htog, u', _, halike', fun i => (hstep i).2⟩

theorem RingJoint.run_together (hcap : capacity ≠ some 0) (hpos : 0 < n)
    (hn : 2 * n < wordRange) {u : Opener Unit} {x : RingLedger n}
    {o : Fin n → RingOpener Ring128} (h : Abreast u x o) (joint : RingJoint n)
    (t : Fin n → Tape) :
    ∃ (r : Fin n → Except Error (List Ring128)) (u' : Opener Unit) (x' : RingLedger n)
      (o' : Fin n → RingOpener Ring128) (t' : Fin n → Tape), World.Together capacity
        (fun i => (joint.run i).run.run (o i)) t (fun i => (r i, o' i)) t' ∧
      Abreast u' x' o' := by
  have hjoined : RingAccount.Joined u x fun i => ⟨o i, x, []⟩ :=
    ⟨fun _ => rfl, h, fun _ _ hp => absurd hp List.not_mem_nil⟩
  obtain ⟨r, u', x', s', t', htog, h'⟩ :=
    RingAccount.joint_together hcap hpos hn hjoined joint t
  exact ⟨r, u', x', fun i => (s' i).opener, t',
    Forgets.together (fun i => RingAccount.erases_joint i joint) htog, h'.abreast⟩

/-- Where a player works: a sum, an opener that sends whole values of the field or of the ring,
or one that sends low halves. There are any number of each. -/
inductive Station where
  | sums (k : Nat)
  | field (k : Nat)
  | whole (k : Nat)
  | halves (k : Nat)
  deriving DecidableEq

namespace Station

def State : Station → Type
  | sums _ => Aggregator
  | field _ => Opener Mersenne61
  | whole _ => Opener Ring128
  | halves _ => RingOpener Ring128

def Key : Station → Type
  | sums _ => Unit
  | field _ => Mersenne61
  | whole _ => Ring128
  | halves _ => Ring128

def Joint (n : Nat) : Station → Type
  | sums _ => Call n
  | field _ => AuthShares.Joint Mersenne61 n
  | whole _ => AuthShares.Joint Ring128 n
  | halves _ => RingJoint n

def new (mode : ExchangeMode) (c : Config) : (s : Station) → s.Key → s.State
  | sums _, _ => .ofConfig c
  | field _, key => .new mode key c
  | whole _, key => .new mode key c
  | halves _, key => .new mode key c

def run (i : Fin n) : (s : Station) → s.Joint n → Action s.State Argument
  | sums _, call => ExceptT.mk ((call.argument i).sum (Player.numbered i))
  | field _, joint => do
    let values ← joint.run i
    return .field values
  | whole _, joint => do
    let values ← joint.run i
    return .ring values
  | halves _, joint => do
    let values ← joint.run i
    return .ring values

def InStep : (s : Station) → (Fin n → s.State) → Prop
  | sums _, a => Aggregator.InStep a
  | field _, o => Opener.InStep o
  | whole _, o => Opener.InStep o
  | halves _, o => ∃ u x, Abreast u x o

theorem inStep_new (mode : ExchangeMode) (c : Config) :
    (s : Station) → (key : Fin n → s.Key) → s.InStep fun i => s.new mode c (key i)
  | sums _, _ => Aggregator.inStep_new c
  | field _, key => Opener.inStep_new (T := Mersenne61) mode c key
  | whole _, key => Opener.inStep_new (T := Ring128) mode c key
  | halves _, key => ⟨_, _, .new mode c key⟩

/-- Players that are at one point get through an operation together, whatever it comes to, and are
at one point again. -/
theorem run_together (hcap : capacity ≠ some 0) (hpos : 0 < n) (hn : 2 * n < wordRange)
    (s : Station) {a : Fin n → s.State} (h : s.InStep a) (joint : s.Joint n) (t : Fin n → Tape) :
    ∃ (r : Fin n → Except Error Argument) (a' : Fin n → s.State) (t' : Fin n → Tape),
      World.Together capacity (fun i => (s.run i joint).run.run (a i)) t
        (fun i => (r i, a' i)) t' ∧
      s.InStep a' := by
  cases s with
  | sums k =>
    obtain ⟨a', htog, h'⟩ := Call.sum_inStep hcap hpos hn h joint t
    exact ⟨_, a', t, htog, h'⟩
  | field k =>
    obtain ⟨r, o', t', htog, h'⟩ := Joint.run_inStep hcap hpos hn h joint t
    exact ⟨fun i => (r i).map .field, o', t', htog.mapValue fun _ => Argument.field, h'⟩
  | whole k =>
    obtain ⟨r, o', t', htog, h'⟩ := Joint.run_inStep hcap hpos hn h joint t
    exact ⟨fun i => (r i).map .ring, o', t', htog.mapValue fun _ => Argument.ring, h'⟩
  | halves k =>
    obtain ⟨u, x, h⟩ := h
    obtain ⟨r, u', x', o', t', htog, h'⟩ := RingJoint.run_together hcap hpos hn h joint t
    exact ⟨fun i => (r i).map .ring, o', t', htog.mapValue fun _ => Argument.ring, u', x', h'⟩

end Station

abbrev Desk := ∀ s : Station, s.State

structure Assignment (n : Nat) where
  station : Station
  joint : station.Joint n

namespace Assignment

def run (i : Fin n) (x : Assignment n) : Action Desk Argument :=
  Action.zoom (fun d => d x.station) (fun d a => Function.update d x.station a)
    (x.station.run i x.joint)

def runAll (i : Fin n) : List (Assignment n) → StateT Desk Protocol (List (Except Error Argument))
  | [] => return []
  | x :: rest => do
    let r ← (x.run i).run
    let rs ← runAll i rest
    return r :: rs

theorem run_together (hcap : capacity ≠ some 0) (hpos : 0 < n) (hn : 2 * n < wordRange)
    (x : Assignment n) {d : Fin n → Desk} (h : ∀ s : Station, s.InStep fun i => d i s)
    (t : Fin n → Tape) :
    ∃ (r : Fin n → Except Error Argument) (d' : Fin n → Desk) (t' : Fin n → Tape),
      World.Together capacity (fun i => (x.run i).run.run (d i)) t (fun i => (r i, d' i)) t' ∧
      ∀ s : Station, s.InStep fun i => d' i s := by
  obtain ⟨r, a, t', htog, ha⟩ := x.station.run_together hcap hpos hn (h x.station) x.joint t
  refine ⟨r, fun i => Function.update (d i) x.station (a i), t', htog.zoom, fun s => ?_⟩
  by_cases hs : s = x.station
  · subst hs
    simpa only [Function.update_self] using ha
  · simpa only [Function.update_of_ne hs] using h s

theorem runAll_together (hcap : capacity ≠ some 0) (hpos : 0 < n) (hn : 2 * n < wordRange)
    (xs : List (Assignment n)) {d : Fin n → Desk} (h : ∀ s : Station, s.InStep fun i => d i s)
    (t : Fin n → Tape) :
    ∃ (rs : Fin n → List (Except Error Argument)) (d' : Fin n → Desk) (t' : Fin n → Tape),
      World.Together capacity (fun i => (runAll i xs).run (d i)) t (fun i => (rs i, d' i)) t' ∧
      ∀ i, (rs i).length = xs.length := by
  induction xs generalizing d t with
  | nil => exact ⟨fun _ => [], d, t, World.Together.pure _ t, fun _ => rfl⟩
  | cons x rest ih =>
    obtain ⟨r, d', t', hfirst, h'⟩ := x.run_together hcap hpos hn h t
    obtain ⟨rs, d'', t'', hrest, hlen⟩ := ih h' t'
    exact ⟨fun i => r i :: rs i, d'', t'', hfirst.bind (hrest.bind (World.Together.pure _ t'')),
      fun i => congrArg Nat.succ (hlen i)⟩

end Assignment

end AuthShares
