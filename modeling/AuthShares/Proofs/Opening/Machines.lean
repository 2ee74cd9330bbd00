import AuthShares.Proofs.Network.Likeness
import AuthShares.Proofs.Network.Outcomes

/-!
# Machines that check from time to time

Openers over a field and over a ring carry out their commands in one way. A command first collects
what it adds to the values that wait for a check. Then it has them checked, if it asks for that or
if so many wait that a check is due, and at last it hands out values. Only the first two steps can
fail. What is said here of such machines concerns how many values wait, and when checks are made.
-/

set_option autoImplicit false

namespace AuthShares

open Action (Keeps)

inductive Occasion where
  | never
  | whenDue
  | always

def Occasion.Calls (checkAfter waiting : Nat) : Occasion → Prop
  | never => False
  | whenDue => checkAfter ≤ waiting
  | always => True

instance (checkAfter waiting : Nat) (occasion : Occasion) :
    Decidable (occasion.Calls checkAfter waiting) := by
  cases occasion
  · exact inferInstanceAs (Decidable False)
  · exact inferInstanceAs (Decidable (checkAfter ≤ waiting))
  · exact inferInstanceAs (Decidable True)

/-- Whether a command failed before a check was made, went without one, or had one made. -/
inductive Course where
  | broken
  | unchecked
  | checked
  deriving DecidableEq, Repr

structure Remark (ρ : Type) where
  result : Except Error ρ
  course : Course
  waiting : Nat

def Remark.Succeeds {ρ : Type} (x : Remark ρ) : Prop := ∃ a, x.result = .ok a

theorem Remark.not_succeeds_error {ρ : Type} (e : Error) (course : Course) (waiting : Nat) :
    ¬ (⟨.error e, course, waiting⟩ : Remark ρ).Succeeds := by
  rintro ⟨_, hx⟩
  cases hx

structure Machine (σ κ ρ : Type) where
  collect : κ → Action σ Unit
  occasion : κ → Occasion
  check : Action σ Unit
  handOut : κ → σ → ρ × σ
  waiting : σ → Nat
  checkAfter : σ → Nat

namespace Machine

variable {σ κ ρ : Type} (M : Machine σ κ ρ)

def Calls (c : κ) (s : σ) : Prop := (M.occasion c).Calls (M.checkAfter s) (M.waiting s)

instance (c : κ) (s : σ) : Decidable (M.Calls c s) :=
  inferInstanceAs (Decidable (Occasion.Calls ..))

def checkIfCalled (c : κ) : Action σ Unit := do
  let s ← getThe σ
  if M.Calls c s then M.check else return ()

def settle (c : κ) : Action σ ρ := do
  M.checkIfCalled c
  modifyGet (M.handOut c)

def run (c : κ) : Action σ ρ := do
  M.collect c
  M.settle c

def note (c : κ) : StateT σ Protocol (Remark ρ) := do
  let r ← (M.collect c).run
  let s ← getThe σ
  match r with
  | .error e => return ⟨.error e, .broken, M.waiting s⟩
  | .ok () =>
    let r ← (M.settle c).run
    let s' ← getThe σ
    return ⟨r, if M.Calls c s then .checked else .unchecked, M.waiting s'⟩

def noteAll : List κ → StateT σ Protocol (List (Remark ρ))
  | [] => return []
  | c :: rest => do
    let x ← M.note c
    let xs ← noteAll rest
    return x :: xs

/-- A command does the same whether or not its course is noted. -/
theorem note_map (c : κ) :
    (fun x => (x.result, x.waiting)) <$> M.note c = do
      let r ← (M.run c).run
      let s ← getThe σ
      return (r, M.waiting s) := by
  simp only [note, run, ExceptT.run_bind, map_bind, bind_assoc]
  congr 1
  funext r
  cases r with
  | ok a =>
    simp only [map_bind, map_pure]
    rfl
  | error e => rfl

theorem noteAll_cons_map (c : κ) (rest : List κ) :
    List.map (fun x => (x.result, x.waiting)) <$> M.noteAll (c :: rest) = do
      let r ← (M.run c).run
      let s ← getThe σ
      let rs ← List.map (fun x => (x.result, x.waiting)) <$> M.noteAll rest
      return (r, M.waiting s) :: rs := by
  have hcons : List.map (fun x => (x.result, x.waiting)) <$> M.noteAll (c :: rest) =
      ((fun x => (x.result, x.waiting)) <$> M.note c) >>= fun y =>
        (List.map (fun x => (x.result, x.waiting)) <$> M.noteAll rest) >>= fun ys =>
          pure (y :: ys) := by
    simp only [noteAll, map_bind, bind_map_left, map_pure, List.map_cons]
  rw [hcons, note_map]
  simp only [bind_assoc, pure_bind]

variable {M} {c : κ} {s : σ}

theorem checkIfCalled_run_of_calls (h : M.Calls c s) :
    (M.checkIfCalled c).run.run s = M.check.run.run s := by
  show (if M.Calls c s then M.check else pure ()).run.run s = _
  rw [if_pos h]

theorem checkIfCalled_run_of_not (h : ¬ M.Calls c s) :
    (M.checkIfCalled c).run.run s = .done (.ok (), s) := by
  show (if M.Calls c s then M.check else pure ()).run.run s = _
  rw [if_neg h]
  rfl

inductive Step (M : Machine σ κ ρ) (c : κ) (s : σ) : Remark ρ → σ → Prop where
  | broken {e : Error} {s' : σ} (hcollect : (M.collect c).Ends s (.error e) s') :
      Step M c s ⟨.error e, .broken, M.waiting s'⟩ s'
  | unchecked {u : σ} (hcollect : (M.collect c).Yields s () u) (hcalls : ¬ M.Calls c u) :
      Step M c s ⟨.ok (M.handOut c u).1, .unchecked, M.waiting (M.handOut c u).2⟩
        (M.handOut c u).2
  | checked {u v : σ} (hcollect : (M.collect c).Yields s () u) (hcalls : M.Calls c u)
      (hcheck : M.check.Yields u () v) :
      Step M c s ⟨.ok (M.handOut c v).1, .checked, M.waiting (M.handOut c v).2⟩ (M.handOut c v).2
  | rejected {u s' : σ} {e : Error} (hcollect : (M.collect c).Yields s () u)
      (hcalls : M.Calls c u) (hcheck : M.check.Ends u (.error e) s') :
      Step M c s ⟨.error e, .checked, M.waiting s'⟩ s'

theorem note_step {x : Remark ρ} {s' : σ} (h : ((M.note c).run s).Returns (x, s')) :
    M.Step c s x s' := by
  obtain ⟨⟨r, u⟩, hcollect, h⟩ := (Protocol.returns_bind ((M.collect c).run.run s) _ _).mp h
  cases r with
  | error e =>
    cases h
    exact .broken hcollect
  | ok a =>
    obtain ⟨⟨r, v⟩, hsettle, h⟩ := (Protocol.returns_bind ((M.settle c).run.run u) _ _).mp h
    cases h
    -- values are handed out just if no check was called for, or if it has passed
    by_cases hcalls : M.Calls c u
    · rw [if_pos hcalls]
      obtain ⟨_, w, hcheck, hhand⟩ | ⟨e, hcheck, rfl⟩ := Action.ends_bind.mp hsettle
      · rw [Action.Yields, checkIfCalled_run_of_calls hcalls] at hcheck
        cases hhand
        exact .checked hcollect hcalls hcheck
      · rw [Action.Ends, checkIfCalled_run_of_calls hcalls] at hcheck
        exact .rejected hcollect hcalls hcheck
    · rw [if_neg hcalls]
      obtain ⟨_, w, hcheck, hhand⟩ | ⟨e, hcheck, rfl⟩ := Action.ends_bind.mp hsettle
      · rw [Action.Yields, checkIfCalled_run_of_not hcalls] at hcheck
        cases hcheck
        cases hhand
        exact .unchecked hcollect hcalls
      · rw [Action.Ends, checkIfCalled_run_of_not hcalls] at hcheck
        cases hcheck

theorem noteAll_cons {rest : List κ} {xs : List (Remark ρ)} {s' : σ}
    (h : ((M.noteAll (c :: rest)).run s).Returns (xs, s')) :
    ∃ x u ys, xs = x :: ys ∧ M.Step c s x u ∧ ((M.noteAll rest).run u).Returns (ys, s') := by
  obtain ⟨⟨x, u⟩, hnote, h⟩ := (Protocol.returns_bind ((M.note c).run s) _ _).mp h
  obtain ⟨⟨ys, v⟩, hrest, h⟩ := (Protocol.returns_bind ((M.noteAll rest).run u) _ _).mp h
  cases h
  exact ⟨x, u, ys, rfl, note_step hnote, hrest⟩

theorem length_noteAll {cs : List κ} {xs : List (Remark ρ)} {s' : σ}
    (h : ((M.noteAll cs).run s).Returns (xs, s')) : xs.length = cs.length := by
  induction cs generalizing s xs with
  | nil =>
    cases h
    rfl
  | cons c rest ih =>
    obtain ⟨x, u, ys, rfl, -, hrest⟩ := noteAll_cons h
    exact congrArg Nat.succ (ih hrest)

/-- All parts of the commands of which `K` holds preserve `P`, whatever they come to, and `Q` holds
of what these commands hand out. -/
structure Preserves (M : Machine σ κ ρ) (K : κ → Prop) (P : σ → Prop) (Q : ρ → Prop) : Prop where
  collect {c : κ} (hc : K c) {s s' : σ} {r : Except Error Unit} (h : (M.collect c).Ends s r s')
    (hs : P s) : P s'
  check {s s' : σ} {r : Except Error Unit} (h : M.check.Ends s r s') (hs : P s) : P s'
  handOut {c : κ} (hc : K c) {s : σ} (hs : P s) : Q (M.handOut c s).1 ∧ P (M.handOut c s).2

def Reaches (M : Machine σ κ ρ) (s s' : σ) : Prop :=
  ∃ cs xs, ((M.noteAll cs).run s).Returns (xs, s')

namespace Preserves

variable {K : κ → Prop} {P : σ → Prop} {Q : ρ → Prop} (hM : M.Preserves K P Q)
include hM

theorem step (hc : K c) {x : Remark ρ} {s' : σ} (h : M.Step c s x s') (hs : P s) :
    (∀ a, x.result = .ok a → Q a) ∧ P s' := by
  cases h with
  | broken hcollect => exact ⟨by rintro a ⟨⟩, hM.collect hc hcollect hs⟩
  | unchecked hcollect hcalls =>
    obtain ⟨hQ, hP⟩ := hM.handOut hc (hM.collect hc hcollect hs)
    refine ⟨?_, hP⟩
    rintro a ⟨⟩
    exact hQ
  | checked hcollect hcalls hcheck =>
    obtain ⟨hQ, hP⟩ := hM.handOut hc (hM.check hcheck (hM.collect hc hcollect hs))
    refine ⟨?_, hP⟩
    rintro a ⟨⟩
    exact hQ
  | rejected hcollect hcalls hcheck =>
    exact ⟨by rintro a ⟨⟩, hM.check hcheck (hM.collect hc hcollect hs)⟩

theorem noteAll {cs : List κ} (hcs : ∀ c ∈ cs, K c) {xs : List (Remark ρ)} {s' : σ}
    (h : ((M.noteAll cs).run s).Returns (xs, s')) (hs : P s) :
    (∀ x ∈ xs, ∀ a, x.result = .ok a → Q a) ∧ P s' := by
  induction cs generalizing s xs with
  | nil =>
    cases h
    exact ⟨fun x hx => absurd hx List.not_mem_nil, hs⟩
  | cons c rest ih =>
    obtain ⟨x, u, ys, rfl, hstep, hrest⟩ := noteAll_cons h
    obtain ⟨hx, hu⟩ := hM.step (hcs c (by simp)) hstep hs
    obtain ⟨hxs, hv⟩ := ih (fun d hd => hcs d (by simp [hd])) hrest hu
    refine ⟨fun y hy => ?_, hv⟩
    rcases List.mem_cons.mp hy with rfl | hy
    · exact hx
    · exact hxs y hy

theorem reaches (hK : ∀ c, K c) {s' : σ} (h : M.Reaches s s') (hs : P s) : P s' := by
  obtain ⟨cs, xs, h⟩ := h
  exact (hM.noteAll (fun c _ => hK c) h hs).2

end Preserves

/-- From both states the commands do the same, whatever the network does: they send the same
messages, the same is noted of them, and the states that they leave are alike. -/
def SameFrom (M : Machine σ κ ρ) (R : σ → σ → Prop) (cs : List κ) (s s' : σ) : Prop :=
  ((M.noteAll cs).run s).Rel (fun x y => x.1 = y.1 ∧ R x.2 y.2) ((M.noteAll cs).run s')

structure Ignores (M : Machine σ κ ρ) (R : σ → σ → Prop) : Prop where
  collect (c : κ) : Keeps R (M.collect c)
  check : Keeps R M.check
  handOut (c : κ) (s s' : σ) (h : R s s') :
    (M.handOut c s).1 = (M.handOut c s').1 ∧ R (M.handOut c s).2 (M.handOut c s').2
  waiting (s s' : σ) (h : R s s') : M.waiting s = M.waiting s'
  checkAfter (s s' : σ) (h : R s s') : M.checkAfter s = M.checkAfter s'

namespace Ignores

variable {R : σ → σ → Prop} (hM : M.Ignores R)
include hM

theorem calls_iff (c : κ) {s s' : σ} (h : R s s') : M.Calls c s ↔ M.Calls c s' := by
  rw [Calls, Calls, hM.waiting s s' h, hM.checkAfter s s' h]

theorem settle (c : κ) : Keeps R (M.settle c) := by
  refine Keeps.bind (fun s s' h => ?_) fun _ s s' h =>
    .done ⟨congrArg Except.ok (hM.handOut c s s' h).1, (hM.handOut c s s' h).2⟩
  by_cases hcalls : M.Calls c s
  · rw [checkIfCalled_run_of_calls hcalls,
      checkIfCalled_run_of_calls ((hM.calls_iff c h).mp hcalls)]
    exact hM.check s s' h
  · rw [checkIfCalled_run_of_not hcalls,
      checkIfCalled_run_of_not fun h' => hcalls ((hM.calls_iff c h).mpr h')]
    exact .done ⟨rfl, h⟩

theorem note_rel {c : κ} {s s' : σ} (h : ((M.collect c).run.run s).Rel
      (fun x y => x.1 = y.1 ∧ R x.2 y.2) ((M.collect c).run.run s')) :
    ((M.note c).run s).Rel (fun x y => x.1 = y.1 ∧ R x.2 y.2) ((M.note c).run s') := by
  refine Protocol.Rel.bind h ?_
  rintro ⟨r, u⟩ ⟨_, u'⟩ ⟨rfl, hu⟩
  cases r with
  | error e => exact .done ⟨by rw [hM.waiting u u' hu], hu⟩
  | ok a =>
    show Protocol.Rel _ (((M.settle c).run.run u).bind _) (((M.settle c).run.run u').bind _)
    refine Protocol.Rel.bind (hM.settle c u u' hu) ?_
    rintro ⟨r, v⟩ ⟨_, v'⟩ ⟨rfl, hv⟩
    refine .done ⟨?_, hv⟩
    have hwaiting : M.waiting v = M.waiting v' := hM.waiting v v' hv
    simp only [hM.calls_iff c hu, hwaiting]

theorem cons_same {c : κ} {cs : List κ} (hcs : ∀ s s', R s s' → M.SameFrom R cs s s') {s s' : σ}
    (h : ((M.collect c).run.run s).Rel (fun x y => x.1 = y.1 ∧ R x.2 y.2)
      ((M.collect c).run.run s')) : M.SameFrom R (c :: cs) s s' := by
  refine Protocol.Rel.bind (hM.note_rel h) ?_
  rintro ⟨x, u⟩ ⟨_, u'⟩ ⟨rfl, hu⟩
  refine Protocol.Rel.bind (hcs u u' hu) ?_
  rintro ⟨xs, v⟩ ⟨_, v'⟩ ⟨rfl, hv⟩
  exact .done ⟨rfl, hv⟩

theorem same (cs : List κ) (s s' : σ) (h : R s s') : M.SameFrom R cs s s' := by
  induction cs generalizing s s' with
  | nil => exact .done ⟨rfl, h⟩
  | cons c rest ih => exact hM.cons_same ih (hM.collect c s s' h)

end Ignores

end Machine

end AuthShares
