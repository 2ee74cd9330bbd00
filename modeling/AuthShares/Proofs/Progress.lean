import AuthShares.Proofs.Stations

/-!
# Progress over bounded channels

A player that is done with its part of an operation goes on to the next one at once, so players
may be several operations apart, with messages of all of them under way. However few messages a
channel holds, the players never all wait for each other. With valid sharings, and masks enough,
everything they do succeeds.
-/

set_option autoImplicit false

namespace AuthShares

variable {n : Nat} {capacity : Option Nat}

section Valid

variable {T : Type} [MacElement T] {key : Fin n → T}

def Sharing.contribution (s : Sharing T key) : Contribution T n := ⟨s.share, s.value_canonical⟩

theorem Sharing.map_share (b : List (Sharing T key)) (i : Fin n) :
    (b.map (·.share)).map (· i) = b.map (·.share i) := List.map_map

theorem Sharing.map_contribution (b : List (Sharing T key)) (i : Fin n) :
    (b.map (·.contribution)).map (·.share i) = b.map (·.share i) := List.map_map

def Task.joint : Task T key → Joint T n
  | .start count room => .start count room
  | .prepare s => .prepare s.contribution none
  | .exchange => .exchange
  | .finish => .finish
  | .openAll b => .openAll (b.map (·.contribution))
  | .openOne s => .openOne s.contribution
  | .addToCheck s => .addToCheck s.share fun _ => s.secret
  | .check => .check
  | .checkIfDue => .checkIfDue

theorem Task.run_joint [Wire T] (task : Task T key) (i : Fin n) :
    task.joint.run i = (task.operation i).run (Player.numbered i) := by
  cases task with
  | openAll b =>
    rw [joint, Joint.run, Sharing.map_contribution]
    rfl
  | _ => rfl

end Valid

def RingTask.joint {key : Fin n → Ring128} : RingTask key → RingJoint n
  | .start count room => .start count room
  | .prepare s => .prepare s.share
  | .exchange => .exchange
  | .finish => .finish
  | .openAll b => .openAll (b.map (·.share))
  | .addToCheck s opened _ => .addToCheck s.share opened
  | .check => .check

theorem RingTask.run_joint {key : Fin n → Ring128} (task : RingTask key) (i : Fin n) :
    task.joint.run i = RingOpener.operate (Player.numbered i) (task.operation i) := by
  cases task with
  | openAll b =>
    rw [joint, RingJoint.run, Sharing.map_share]
    rfl
  | _ => rfl

theorem RingReflects.setMasks {key : Fin n → Ring128} {a : Aggregator} {mode : ExchangeMode}
    {checkAfter : Nat} {i : Fin n} {u : RingSession key} {o : RingOpener Ring128}
    (h : RingReflects a mode checkAfter i u o) (masks : List (Sharing Ring128 key)) :
    RingReflects a mode checkAfter i { u with masks } (o.setMasks (masks.map (·.share i))) :=
  { h with masks := rfl }

namespace Station

/-- What all players carry out together on valid sharings. To open low halves they are given masks
first. -/
def Task : (s : Station) → (Fin n → s.Key) → Type
  | sums _, _ => Call n
  | field _, key => AuthShares.Task Mersenne61 key
  | whole _, key => AuthShares.Task Ring128 key
  | halves _, key => List (Sharing Ring128 key) ⊕ RingTask key

def Session : (s : Station) → (Fin n → s.Key) → Type
  | sums _, _ => Unit
  | field _, key => AuthShares.Session Mersenne61 key
  | whole _, key => AuthShares.Session Ring128 key
  | halves _, key => Option (RingSession key)

variable {s : Station} {key : Fin n → s.Key}

def Task.joint : {s : Station} → {key : Fin n → s.Key} → s.Task key → s.Joint n
  | sums _, _, call => call
  | field _, _, task => AuthShares.Task.joint task
  | whole _, _, task => AuthShares.Task.joint task
  | halves _, _, .inl masks => RingJoint.setMasks (masks.map (·.share))
  | halves _, _, .inr task => task.joint

namespace Session

def new : (s : Station) → (key : Fin n → s.Key) → s.Session key
  | sums _, _ => ()
  | field _, _ => AuthShares.Session.empty
  | whole _, _ => AuthShares.Session.empty
  | halves _, _ => none

def Allows (checkAfter : Nat) :
    {s : Station} → {key : Fin n → s.Key} → s.Session key → s.Task key → Prop
  | sums _, _, _, _ => True
  | field _, _, u, task => AuthShares.Session.Allows u task
  | whole _, _, u, task => AuthShares.Session.Allows u task
  | halves _, _, _, .inl _ => True
  | halves _, _, none, .inr _ => False
  | halves _, _, some u, .inr task => u.Allows checkAfter task

def step (checkAfter : Nat) :
    {s : Station} → {key : Fin n → s.Key} → s.Session key → s.Task key → s.Session key
  | sums _, _, _, _ => ()
  | field _, _, u, task => AuthShares.Session.step checkAfter u task
  | whole _, _, u, task => AuthShares.Session.step checkAfter u task
  | halves _, _, none, .inl masks => some (.new masks)
  | halves _, _, none, .inr _ => none
  | halves _, _, some u, .inl masks => some { u with masks }
  | halves _, _, some u, .inr task => some (u.step checkAfter task)

def Shown (mode : ExchangeMode) (c : Config) :
    {s : Station} → {key : Fin n → s.Key} → s.Session key → (Fin n → s.State) → Prop
  | sums _, _, _, a => Aggregator.InStep a
  | field _, _, u, o => ∀ i, Reflects (.ofConfig c) mode c.checkAfter i u (o i)
  | whole _, _, u, o => ∀ i, Reflects (.ofConfig c) mode c.checkAfter i u (o i)
  | halves _, key, none, o => ∀ i, o i = .new mode (key i) c
  | halves _, _, some u, o => ∀ i, RingReflects (.ofConfig c) mode c.checkAfter i u (o i)

theorem shown_new (mode : ExchangeMode) (c : Config) :
    (s : Station) → (key : Fin n → s.Key) → (new s key).Shown mode c fun i => s.new mode c (key i)
  | sums _, _ => Aggregator.inStep_new c
  | field _, _ => Reflects.new mode c
  | whole _, _ => Reflects.new mode c
  | halves _, _ => fun _ => rfl

end Session

def Canonical : (s : Station) → (Fin n → s.Key) → Prop
  | field _, key => ∀ i, Element.isCanonical (show Mersenne61 from key i)
  | _, _ => True

/-- Every task that is allowed succeeds, with the same values everywhere. -/
theorem Task.run_shown (hcap : capacity ≠ some 0) (hpos : 0 < n) (hn : 2 * n < wordRange)
    {mode : ExchangeMode} {c : Config} {s : Station} {key : Fin n → s.Key}
    (hkey : s.Canonical key) {u : s.Session key} {a : Fin n → s.State} (h : u.Shown mode c a)
    (task : s.Task key) (hallows : u.Allows c.checkAfter task) (t : Fin n → Tape) :
    ∃ (v : Argument) (a' : Fin n → s.State) (t' : Fin n → Tape),
      Accord capacity (fun i => s.run i task.joint) a t (fun _ => v) a' t' ∧
      (u.step c.checkAfter task).Shown mode c a' := by
  cases s with
  | sums k =>
    obtain ⟨a', htog, h'⟩ := Call.sum_inStep hcap hpos hn h task t
    exact ⟨_, a', t, htog, h'⟩
  | field k =>
    obtain ⟨o', t', hacc, h'⟩ := AuthShares.Task.run_reflects hcap hpos hn hkey h task hallows t
    simp only [← fun i => AuthShares.Task.run_joint task i] at hacc
    exact ⟨_, o', t', hacc.bind (Accord.pure (fun _ => Argument.field _) _ t'), h'⟩
  | whole k =>
    obtain ⟨o', t', hacc, h'⟩ :=
      AuthShares.Task.run_reflects hcap hpos hn (fun _ => rfl) h task hallows t
    simp only [← fun i => AuthShares.Task.run_joint task i] at hacc
    exact ⟨_, o', t', hacc.bind (Accord.pure (fun _ => Argument.ring _) _ t'), h'⟩
  | halves k =>
    cases task with
    | inl masks =>
      refine ⟨.ring [], fun i => RingOpener.setMasks (a i) (masks.map (·.share i)), t,
        Accord.of_done (fun i => ?_) t, ?_⟩
      · rw [← Sharing.map_share masks i]
        rfl
      · cases u with
        | none =>
          obtain rfl : a = fun i => RingOpener.new mode (key i) c := funext h
          exact fun i => RingReflects.new mode c i masks
        | some u => exact fun i => (h i).setMasks masks
    | inr task =>
      cases u with
      | none => exact absurd hallows id
      | some u =>
        obtain ⟨o', t', hacc, h'⟩ := RingReflects.operate hcap hpos hn h task hallows t
        simp only [← fun i => RingTask.run_joint task i] at hacc
        exact ⟨_, o', t', hacc.bind (Accord.pure (fun _ => Argument.ring _) _ t'), h'⟩

end Station

structure Duty (key : ∀ s : Station, Fin n → s.Key) where
  station : Station
  task : station.Task (key station)

namespace Duty

variable {key : ∀ s : Station, Fin n → s.Key}

def assignment (x : Duty key) : Assignment n := ⟨x.station, x.task.joint⟩

def AllowsAll (config : Station → Config) : (∀ s : Station, s.Session (key s)) → List (Duty key) →
    Prop
  | _, [] => True
  | u, x :: rest =>
    (u x.station).Allows (config x.station).checkAfter x.task ∧
      AllowsAll config (Function.update u x.station
        ((u x.station).step (config x.station).checkAfter x.task)) rest

variable {mode : Station → ExchangeMode} {config : Station → Config}

theorem runAll_shown (hcap : capacity ≠ some 0) (hpos : 0 < n) (hn : 2 * n < wordRange)
    (hkey : ∀ s : Station, s.Canonical (key s)) {u : ∀ s : Station, s.Session (key s)}
    {d : Fin n → Desk} (h : ∀ s : Station, (u s).Shown (mode s) (config s) fun i => d i s)
    (xs : List (Duty key)) (hallows : AllowsAll config u xs) (t : Fin n → Tape) :
    ∃ (vs : List Argument) (d' : Fin n → Desk) (t' : Fin n → Tape), World.Together capacity
      (fun i => (Assignment.runAll i (xs.map (·.assignment))).run (d i)) t
      (fun i => (vs.map .ok, d' i)) t' := by
  induction xs generalizing u d t with
  | nil => exact ⟨[], d, t, World.Together.pure _ t⟩
  | cons x rest ih =>
    obtain ⟨hfirst, hrest⟩ := hallows
    obtain ⟨v, a, t', hacc, ha⟩ :=
      x.task.run_shown hcap hpos hn (hkey x.station) (h x.station) hfirst t
    have hrun : Accord capacity (fun i => x.assignment.run i) d t (fun _ => v)
        (fun i => Function.update (d i) x.station (a i)) t' := Accord.zoom hacc
    obtain ⟨vs, d', t'', htog⟩ := ih (d := fun i => Function.update (d i) x.station (a i))
      (fun s => by
        by_cases hs : s = x.station
        · subst hs
          simpa only [Function.update_self] using ha
        · simpa only [Function.update_of_ne hs] using h s) hrest t'
    exact ⟨v :: vs, d', t'', World.Together.bind hrun (htog.bind (World.Together.pure _ t''))⟩

end Duty

/-- All players carry out duties, for which they have valid sharings and enough masks. -/
def Honest (config : Station → Config) (key : ∀ s : Station, Fin n → s.Key)
    (xs : List (Assignment n)) : Prop :=
  (∀ s : Station, s.Canonical (key s)) ∧ ∃ duties : List (Duty key),
    xs = duties.map (·.assignment) ∧
      Duty.AllowsAll config (fun s => Station.Session.new s (key s)) duties

/-- However few messages a channel holds, and whatever the players pass and draw: in no world that
they can get to does everyone wait, unless all of them have carried out everything. Nothing fails
if they have valid sharings and enough masks. There are as many players as signed words can
number. -/
theorem never_stuck {c : Nat} (hc : 0 < c) (hpos : 0 < n) (hn : 2 * n < wordRange)
    (mode : Station → ExchangeMode) (config : Station → Config)
    (key : ∀ s : Station, Fin n → s.Key) (xs : List (Assignment n)) (t : Fin n → Tape) :
    ∃ (rs : Fin n → List (Except Error Argument)) (d : Fin n → Desk) (t' : Fin n → Tape)
      (bound : Nat), (∀ i, (rs i).length = xs.length) ∧
      (Honest config key xs → ∃ vs : List Argument, ∀ i, rs i = vs.map .ok) ∧
      ∀ k w, World.Run (some c) k
          (World.start (fun i => (Assignment.runAll i xs).run
            fun s => s.new (mode s) (config s) (key s i)) t .empty) w →
        k ≤ bound ∧ (w = World.start (fun i => .done (rs i, d i)) t' .empty ∨
          ∃ v, World.Step (some c) w v) := by
  have hcap : some c ≠ some 0 := fun h => hc.ne' (Option.some.inj h)
  obtain ⟨rs, d, t', htog, hlen⟩ := Assignment.runAll_together hcap hpos hn xs
    (fun s => s.inStep_new (mode s) (config s) (key s)) t
  obtain ⟨bound, hbound⟩ := htog.endsIn
  refine ⟨rs, d, t', bound, hlen, ?_, fun k w hrun => ?_⟩
  · rintro ⟨hkey, duties, rfl, hallows⟩
    obtain ⟨vs, d', t'', hall⟩ := Duty.runAll_shown hcap hpos hn hkey
      (fun s => Station.Session.shown_new (mode s) (config s) s (key s)) duties hallows t
    exact ⟨vs, fun i => (Prod.ext_iff.mp (congrFun (htog.values_eq hall.endsIn) i)).1⟩
  · obtain ⟨hk, hstill⟩ := hbound k w hrun
    refine ⟨hk, ?_⟩
    by_cases hstep : ∃ v, World.Step (some c) w v
    · exact .inr hstep
    · exact .inl (hstill hstep)

def fiveKey : (s : Station) → Fin 2 → s.Key
  | .sums _ => fun _ => ()
  | .field _ => sevenKey
  | .whole _ => fun i => (⟨if i.val = 0 then 2 else 3⟩ : Ring128)
  | .halves _ => fun i => (⟨if i.val = 0 then 2 else 3⟩ : Ring128)

def fiveDuties : List (Duty fiveKey) :=
  [⟨.sums 0, Call.ring ⟨2, fun _ => [⟨5⟩, ⟨6⟩], fun _ => rfl, fun _ _ _ => rfl⟩⟩,
    ⟨.field 0, Task.openAll [.seven]⟩,
    ⟨.field 0, Task.check⟩,
    ⟨.halves 0, .inl [RingOpener.eleven]⟩,
    ⟨.halves 0, .inr (.openAll [RingOpener.carriedSeven])⟩,
    ⟨.halves 0, .inr .check⟩]

theorem never_stuck_two :
    ∃ (rs : Fin 2 → List (Except Error Argument)) (d : Fin 2 → Desk) (t' : Fin 2 → Tape)
      (bound : Nat), (∃ vs : List Argument, vs.length = 6 ∧ ∀ i, rs i = vs.map .ok) ∧
      ∀ k w, World.Run (some 1) k
          (World.start (fun i => (Assignment.runAll i (fiveDuties.map (·.assignment))).run
            fun s => s.new .direct .default (fiveKey s i)) (fun _ _ => zeroBytes) .empty) w →
        k ≤ bound ∧ (w = World.start (fun i => .done (rs i, d i)) t' .empty ∨
          ∃ v, World.Step (some 1) w v) := by
  have hhonest : Honest (fun _ => .default) fiveKey (fiveDuties.map (·.assignment)) := by
    refine ⟨fun s => ?_, fiveDuties, rfl, ?_⟩
    · cases s with
      | field k => exact (by decide : ∀ i : Fin 2, Element.isCanonical (sevenKey i))
      | _ => trivial
    · exact ⟨trivial, trivial, trivial, trivial, fun _ _ => List.cons_ne_nil _ _,
        fun _ => List.cons_ne_nil _ _, trivial⟩
  obtain ⟨rs, d, t', bound, hlen, hok, hrun⟩ := never_stuck (n := 2) (c := 1) (by decide)
    (by decide) (by decide) (fun _ => .direct) (fun _ => .default) fiveKey
    (fiveDuties.map (·.assignment)) fun _ _ => zeroBytes
  obtain ⟨vs, hvs⟩ := hok hhonest
  have hsize := hlen 0
  rw [hvs 0, List.length_map] at hsize
  exact ⟨rs, d, t', bound, ⟨vs, hsize, hvs⟩, hrun⟩

end AuthShares
