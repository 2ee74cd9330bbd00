import AuthShares.Proofs.Opening.Commands
import AuthShares.Proofs.Opening.RingCommands

/-!
# What a check leaves

Whatever a check finds, and wherever it fails, nothing waits any more after it, and nothing else has
changed but the masks over a ring. So what comes later does not depend on what was checked before.
Over a ring this takes that behind every authentication there is a share, which holds of every
opener that comes about by commands.
-/

set_option autoImplicit false

namespace AuthShares

namespace Opener

variable {T : Type}

structure Clears (o o' : Opener T) : Prop extends SameParameters o o', KeepsBatch o o' where
  pendingMacs : o'.pendingMacs = o.pendingMacs
  waiting : o'.waiting = 0
  waitingValues : o'.waitingValues = []
  waitingMacs : o'.waitingMacs = []

theorem clears_clearWaiting (o : Opener T) : o.Clears o.clearWaiting :=
  { keyShare := rfl, mode := rfl, config := rfl, opened := rfl, lengths := rfl, phase := rfl,
    pendingMacs := rfl, waiting := rfl, waitingValues := rfl, waitingMacs := rfl }

variable [MacElement T] [Wire T] {player : Player} {o o' p p' : Opener T}
  {r r' : Except Error Unit}

theorem clears_of_check (h : (check player).Ends o r o') : o.Clears o' :=
  check_ends h ▸ o.clears_clearWaiting

theorem same_of_checks (hsame : p.clearWaiting = o.clearWaiting)
    (h : (check player).Ends o r o') (h' : (check player).Ends p r' p')
    (commands : List (Command T)) : (machine player).SameFrom Repacked commands o' p' := by
  rw [check_ends h, check_ends h', hsame]
  exact machine_ignores.same commands _ _ (.refl _)

end Opener

namespace RingOpener

variable {T : Type}

structure Paired (o : RingOpener T) : Prop where
  waiting : o.waitingShares.length = o.base.waitingMacs.length
  pending : o.pendingShares.length = o.base.pendingMacs.length

structure TakesMask (o : RingOpener T) : Prop where
  waitingValues : o.base.waitingValues ≠ []
  waitingMacs : o.base.waitingMacs ≠ []
  waitingShares : o.waitingShares ≠ []
  even : o.Even
  masks : ∃ mask rest, o.masks = some (mask :: rest)

structure Clears (o o' : RingOpener T) : Prop where
  base : o.base.Clears o'.base
  pendingShares : o'.pendingShares = o.pendingShares
  waitingShares : o'.waitingShares = []
  takesMask : o.TakesMask ↔ ∃ mask rest, o.masks = some (mask :: rest) ∧ o'.masks = some rest
  sparesMasks : ¬ o.TakesMask → o'.masks = o.masks

namespace Paired

variable {o : RingOpener T}

theorem new (mode : ExchangeMode) (keyShare : T) (c : Config) :
    Paired (.new mode keyShare c) := ⟨rfl, rfl⟩

theorem start (h : o.Paired) : o.start.Paired := ⟨h.waiting, rfl⟩

theorem finish (h : o.Paired) : o.finish.2.Paired := ⟨h.waiting, h.pending⟩

theorem repacked {o' : RingOpener T} (h : o.Paired) (ho : o.Repacked o') : o'.Paired := by
  obtain ⟨packed, rfl⟩ := ho
  exact ⟨h.waiting, h.pending⟩

theorem checked (h : o.Paired) : o.checked.Paired := by
  unfold RingOpener.checked
  split_ifs
  · exact h
  · exact ⟨rfl, h.pending⟩
  · exact ⟨rfl, h.pending⟩

theorem waitingShares_checked (h : o.Paired) : o.checked.waitingShares = [] := by
  have hmacs : o.checked.base.waitingMacs = [] := by rw [checked_base]; rfl
  exact List.length_eq_zero_iff.mp (h.checked.waiting.trans (by rw [hmacs]; rfl))

variable [RingElement T]

theorem record (h : o.Paired) : o.record.Paired where
  waiting := by
    show (o.waitingShares ++ o.pendingShares).length =
      (o.base.waitingMacs ++ o.base.pendingMacs).length
    rw [List.length_append, List.length_append, h.waiting, h.pending]
  pending := rfl

theorem prepare (h : o.Paired) (share : Share T) : (o.prepare share).Paired := by
  -- shares that do not meet a batch being collected start one
  suffices hcollects : ∀ {o : RingOpener T}, o.Paired → o.base.phase = .accumulating →
      (o.prepare share).Paired by
    by_cases hp : o.base.phase = .accumulating
    · exact hcollects h hp
    · rw [prepare_start hp]
      exact hcollects h.start rfl
  intro o h hp
  rw [prepare_collects hp]
  exact ⟨h.waiting, by simp [h.pending]⟩

theorem prepareAll (h : o.Paired) (shares : List (Share T)) :
    (shares.foldl RingOpener.prepare o).Paired := by
  induction shares generalizing o with
  | nil => exact h
  | cons share rest ih => exact ih (h.prepare share)

theorem gather (h : o.Paired) (c : RingCommand T) : (c.gather o).Paired := by
  cases c with
  | setMasks masks => exact ⟨h.waiting, h.pending⟩
  | setTopology field n => exact ⟨h.waiting, h.pending⟩
  | operate operation =>
    cases operation with
    | start count room =>
      simp only [RingCommand.gather, startFor_eq _ room]
      exact h.start
    | prepare share => exact h.prepare share
    | openAll shares => exact h.start.prepareAll shares
    | addToCheck share opened =>
      exact ⟨by simp [RingCommand.gather, Opener.addWaiting, h.waiting], h.pending⟩
    | _ => exact h

theorem openPending {player : Player} {o' : RingOpener T} {r : Except Error Unit} (h : o.Paired)
    (hends : (RingOpener.openPending player).Ends o r o') : o'.Paired := by
  obtain ⟨_, u, hshares, hends⟩ | ⟨e, hshares, -⟩ := Action.ends_bind.mp hends
  · obtain ⟨opened, packed, -, -, rfl⟩ | ⟨e, packed, he, -⟩ := exchangeShares_ends hshares
    · cases hends
      exact record (o := { o with base := _ }) ⟨h.waiting, h.pending⟩
    · cases he
  · obtain ⟨_, _, hr, -⟩ | ⟨_, packed, -, rfl⟩ := exchangeShares_ends hshares
    · cases hr
    · exact ⟨h.waiting, rfl⟩

end Paired

section

variable [RingElement T] [Wire T] [DecidableEq T] {player : Player}

theorem machine_preserves : (machine (T := T) player).Preserves (fun _ => True) Paired
    (fun _ => True) where
  collect {c} _ {o o' r} h ho := by
    replace h := Action.ends_modify_bind.mp h
    split at h
    · exact (ho.gather c).openPending h
    · cases h
      exact ho.gather c
  check h ho := ho.checked.repacked (check_ends h)
  handOut {c} _ {o} ho := by
    rcases c with (_ | _ | _ | _ | _ | _ | _) | _ | _
    case operate.finish => exact ⟨trivial, ho.finish⟩
    case operate.openAll => exact ⟨trivial, ho.finish⟩
    all_goals exact ⟨trivial, ho⟩

end

section

variable {o : RingOpener T}

theorem checked_masks_of_takesMask (h : o.TakesMask) :
    o.checked.masks = o.masks.map List.tail := by
  have hwaiting : ¬ o.waiting = 0 := fun hzero => by
    have hmacs := List.length_pos_iff.mpr h.waitingMacs
    unfold waiting Opener.waiting at hzero
    omega
  rw [checked, if_neg hwaiting, if_pos h.even]
  rfl

theorem checked_masks_of_not (h : ¬ o.TakesMask) : o.checked.masks = o.masks := by
  unfold checked
  split_ifs with hzero heven
  · rfl
  · have hlengths := heven
    unfold Even at hlengths
    unfold waiting Opener.waiting at hzero
    -- there are entries, and as many in each list, so it is a mask that is missing
    have hmask : ¬ ∃ mask rest, o.masks = some (mask :: rest) := fun hmasks =>
      h ⟨List.length_pos_iff.mp (by omega), List.length_pos_iff.mp (by omega),
        List.length_pos_iff.mp (by omega), heven, hmasks⟩
    rcases hmasks : o.masks with _ | _ | ⟨mask, rest⟩
    · simp [dropMask, clearWaiting, hmasks]
    · simp [dropMask, clearWaiting, hmasks]
    · exact absurd ⟨mask, rest, hmasks⟩ hmask
  · rfl

theorem checked_pendingShares (o : RingOpener T) : o.checked.pendingShares = o.pendingShares := by
  unfold checked
  split_ifs <;> rfl

theorem clears_checked (h : o.Paired) : o.Clears o.checked where
  base := o.checked_base ▸ o.base.clears_clearWaiting
  pendingShares := o.checked_pendingShares
  waitingShares := h.waitingShares_checked
  takesMask := by
    refine ⟨fun htakes => ?_, fun ⟨mask, rest, hmasks, hrest⟩ => ?_⟩
    · obtain ⟨mask, rest, hmasks⟩ := htakes.masks
      exact ⟨mask, rest, hmasks, by rw [checked_masks_of_takesMask htakes, hmasks]; rfl⟩
    · by_contra htakes
      rw [checked_masks_of_not htakes, hmasks] at hrest
      simp at hrest
  sparesMasks := checked_masks_of_not

theorem Clears.repacked {u o' : RingOpener T} (h : o.Clears u) (hu : u.Repacked o') :
    o.Clears o' := by
  obtain ⟨packed, rfl⟩ := hu
  obtain ⟨hbase, hpending, hwaiting, htakes, hspares⟩ := h
  exact ⟨{ hbase with }, hpending, hwaiting, htakes, hspares⟩

end

variable [RingElement T] [Wire T] [DecidableEq T] {player : Player} {o o' p p' : RingOpener T}
  {r r' : Except Error Unit}

theorem clears_of_check (ho : o.Paired) (h : (check player).Ends o r o') : o.Clears o' :=
  (clears_checked ho).repacked (check_ends h)

theorem same_of_checks (hsame : p.checked = o.checked) (h : (check player).Ends o r o')
    (h' : (check player).Ends p r' p') (commands : List (RingCommand T)) :
    (machine player).SameFrom Repacked commands o' p' := by
  have hp := check_ends h'
  rw [hsame] at hp
  exact machine_ignores.same commands _ _ ((check_ends h).symm.trans hp)

end RingOpener

/-- After a check nothing waits, whatever came of it, and the batch and the parameters are as
before. Over a ring it takes one mask if there is one and the lists fit together, and none
otherwise. What is done later does not depend on what was checked: openers that are the same but for
that, and are left with the same masks, do the same from then on. -/
theorem check_leaves_nothing {T R : Type} [MacElement T] [Wire T] [RingElement R] [Wire R]
    [DecidableEq R] (player : Player) (r : Except Error Unit) :
    (∀ o o' : Opener T, (Opener.check player).Ends o r o' →
      o.Clears o' ∧
      ∀ p r' p', p.clearWaiting = o.clearWaiting → (Opener.check player).Ends p r' p' →
        ∀ commands, (Opener.machine player).SameFrom Opener.Repacked commands o' p') ∧
    ∀ (mode : ExchangeMode) (keyShare : R) (c : Config) (o o' : RingOpener R),
      (RingOpener.machine player).Reaches (.new mode keyShare c) o →
      (RingOpener.check player).Ends o r o' →
      o.Clears o' ∧
      ∀ p r' p', p.checked = o.checked → (RingOpener.check player).Ends p r' p' →
        ∀ commands, (RingOpener.machine player).SameFrom RingOpener.Repacked commands o' p' := by
  refine ⟨fun o o' h => ?_, fun mode keyShare c o o' hreaches h => ?_⟩
  · exact ⟨Opener.clears_of_check h, fun p r' p' hsame h' => Opener.same_of_checks hsame h h'⟩
  · have hpaired : o.Paired := RingOpener.machine_preserves.reaches (fun _ => trivial) hreaches
      (.new mode keyShare c)
    exact ⟨RingOpener.clears_of_check hpaired h,
      fun p r' p' hsame h' => RingOpener.same_of_checks hsame h h'⟩

/-- A value that waits, and a check that is cut off at its first message. Over a ring this is after
the mask has been taken. -/
theorem check_leaves_nothing_cutOff :
    (∃ o o' : Opener Mersenne61, o.waitingValues = [⟨5⟩] ∧ o.Clears o') ∧
    ∃ o o' : RingOpener Ring128, o.base.waitingValues = [⟨5⟩] ∧ o.masks = some [⟨⟨1⟩, ⟨3⟩⟩] ∧
      o.Clears o' ∧ o'.masks = some [] := by
  let player : Player := ⟨0, 2, by decide⟩
  let lost : Error := .channel (.send "RNG comm" .closed)
  let field : Opener Mersenne61 := (Opener.new .aggregated ⟨3⟩ .default).addWaiting ⟨15⟩ ⟨5⟩
  have hfield : (Opener.check player).Ends field (.error lost) field.clearWaiting :=
    .draw zeroBytes (.draw zeroBytes (.scatter (.error (.send "RNG comm" .closed)) (.done _)))
  let ring : RingOpener Ring128 :=
    { base := (Opener.new .aggregated ⟨3⟩ .default).addWaiting ⟨15⟩ ⟨5⟩
      masks := some [⟨⟨1⟩, ⟨3⟩⟩]
      pendingShares := []
      waitingShares := [⟨5⟩] }
  have hreaches : (RingOpener.machine player).Reaches (.new .aggregated ⟨3⟩ .default) ring :=
    ⟨[.setMasks [⟨⟨1⟩, ⟨3⟩⟩], .operate (.addToCheck ⟨⟨5⟩, ⟨15⟩⟩ ⟨5⟩)], _, .done _⟩
  have hring : (RingOpener.check player).Ends ring (.error lost) ring.clearWaiting.dropMask :=
    .draw zeroBytes (.draw zeroBytes (.scatter (.error (.send "RNG comm" .closed)) (.done _)))
  refine ⟨⟨field, field.clearWaiting, rfl, ?_⟩, ring, ring.clearWaiting.dropMask, rfl, rfl, ?_, rfl⟩
  · exact ((check_leaves_nothing (R := Ring128) player _).1 field _ hfield).1
  · exact ((check_leaves_nothing (T := Mersenne61) player _).2 _ _ _ ring _ hreaches hring).1

end AuthShares
