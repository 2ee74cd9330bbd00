import AuthShares.Opening.Ring

/-!
# Operations of an opener

A program is a list of operations, which a player carries out one after the other. After
each of them it notes what came of it and how many values wait for a check. Shares are collected
in the batch that is open, or else start one; over a ring their full values are kept beside it.
-/

set_option autoImplicit false

namespace AuthShares

inductive Operation (T : Type) [Element T] where
  | start (count : Nat) (room : hasRoom count (Element.size T) = true)
  | prepare (share : Share T) (len : Option Nat)
  | exchange
  | finish
  | openAll (shares : List (Share T))
  | openOne (share : Share T)
  | addToCheck (share : Share T) (opened : T)
  | check
  | checkIfDue

variable {T : Type} [MacElement T] [Wire T]

def Operation.run (player : Player) : Operation T → Action (Opener T) (List T)
  | .start count _ => do
    modify fun o => (o.startFor? count).getD o
    return []
  | .prepare share len => do
    modify (·.prepare share len)
    return []
  | .exchange => do
    Opener.exchange player
    return []
  | .finish => Opener.takeOpened
  | .openAll shares => Opener.openAll player shares
  | .openOne share => do
    let opened ← Opener.openOne player share
    return [opened]
  | .addToCheck share opened => do
    Opener.addToCheck player share opened
    return []
  | .check => do
    Opener.check player
    return []
  | .checkIfDue => do
    Opener.checkIfDue player
    return []

def runAll (player : Player) :
    List (Operation T) → StateT (Opener T) Protocol (List (Except Error (List T) × Nat))
  | [] => return []
  | operation :: rest => do
    let r ← (operation.run player).run
    let o ← getThe (Opener T)
    let rs ← runAll player rest
    return (r, o.waiting) :: rs

namespace Opener

variable {T : Type} {o : Opener T}

theorem prepare_eq_append (h : o.phase = .accumulating) (share : Share T) (len : Option Nat) :
    o.prepare share len = { o with
      opened := o.opened ++ [share.value]
      lengths := o.lengths ++ [len]
      pendingMacs := o.pendingMacs ++ [share.mac] } := by
  rw [prepare, if_pos h]

theorem prepare_eq_single (h : ¬ o.phase = .accumulating) (share : Share T)
    (len : Option Nat) :
    o.prepare share len = { o with
      opened := [share.value]
      lengths := [len]
      pendingMacs := [share.mac]
      phase := .accumulating } := by
  rw [prepare, if_neg h]
  rfl

theorem prepareAll_eq (h : o.phase = .accumulating) (shares : List (Share T)) :
    shares.foldl (fun o share => o.prepare share none) o = { o with
      opened := o.opened ++ shares.map (·.value)
      lengths := o.lengths ++ shares.map fun _ => none
      pendingMacs := o.pendingMacs ++ shares.map (·.mac) } := by
  induction shares generalizing o with
  | nil => simp
  | cons share rest ih =>
    have hphase : (o.prepare share none).phase = .accumulating := by rwa [prepare_eq_append h]
    rw [List.foldl_cons, ih hphase, prepare_eq_append h]
    simp

theorem prepare_waitingValues (o : Opener T) (share : Share T) (len : Option Nat) :
    (o.prepare share len).waitingValues = o.waitingValues := by
  unfold prepare
  split <;> rfl

theorem clearWaiting_of_waiting_eq_zero (h : o.waiting = 0) : o.clearWaiting = o := by
  have hmacs : o.waitingMacs = [] := List.length_eq_zero_iff.mp (by unfold waiting at h; omega)
  have hvalues : o.waitingValues = [] :=
    List.length_eq_zero_iff.mp (by unfold waiting at h; omega)
  cases o
  cases hmacs
  cases hvalues
  rfl

end Opener

omit [Wire T] in
theorem Opener.startFor_eq (o : Opener T) {count : Nat}
    (room : hasRoom count (Element.size T) = true) : (o.startFor? count).getD o = o.start := by
  rw [startFor?, if_pos room]
  rfl

theorem Opener.checkIfDue_run_of_lt {o : Opener T} (h : o.waiting < o.checkAfter)
    (player : Player) : (checkIfDue player).run.run o = .done (.ok (), o) := by
  show (if o.checkAfter ≤ o.waiting then check player else pure ()).run.run o = _
  rw [if_neg (Nat.not_le.mpr h)]
  rfl

theorem Opener.checkIfDue_run_of_le {o : Opener T} (h : o.checkAfter ≤ o.waiting)
    (player : Player) : (checkIfDue player).run.run o = (check player).run.run o := by
  show (if o.checkAfter ≤ o.waiting then check player else pure ()).run.run o = _
  rw [if_pos h]

namespace RingOpener

variable {T : Type} [RingElement T] {o : RingOpener T}

theorem startFor_eq (o : RingOpener T) {count : Nat}
    (room : hasRoom count (Element.size T) = true) : (o.startFor? count).getD o = o.start := by
  rw [startFor?, if_pos room]
  rfl

theorem prepare_start (h : ¬ o.base.phase = .accumulating) (share : Share T) :
    o.prepare share = o.start.prepare share := by
  rw [prepare, prepare, if_neg h]
  rfl

theorem prepare_collects (h : o.base.phase = .accumulating) (share : Share T) :
    o.prepare share = { o with
      base := { o.base with
        opened := o.base.opened ++ [share.value]
        lengths := o.base.lengths ++ [some (RingElement.visibleBytes T)]
        pendingMacs := o.base.pendingMacs ++ [share.mac] }
      pendingShares := o.pendingShares ++ [share.value] } := by
  rw [prepare, if_pos h, Opener.prepare_eq_append h]

theorem prepare_base (o : RingOpener T) (share : Share T) :
    (o.prepare share).base = o.base.prepare share (some (RingElement.visibleBytes T)) := by
  by_cases h : o.base.phase = .accumulating
  · rw [prepare_collects h, Opener.prepare_eq_append h]
  · rw [prepare_start h, prepare_collects (o := o.start) rfl, Opener.prepare_eq_single h]
    rfl

theorem prepare_masks (o : RingOpener T) (share : Share T) :
    (o.prepare share).masks = o.masks := by
  unfold prepare
  split <;> rfl

theorem prepareAll_base (o : RingOpener T) (shares : List (Share T)) :
    (shares.foldl prepare o).base =
      shares.foldl (fun o share => o.prepare share (some (RingElement.visibleBytes T))) o.base := by
  induction shares generalizing o with
  | nil => rfl
  | cons share rest ih => rw [List.foldl_cons, ih, prepare_base, List.foldl_cons]

end RingOpener

end AuthShares
