import AuthShares.Proofs.Opening.RingResults

/-!
# Openers with another message packed last

What an opener does depends on the message that its aggregator packed last as little as a sum
does. Openers that differ in it only come to the same in everything, whatever the network does, and
then differ in it only.
-/

set_option autoImplicit false

namespace AuthShares

open Action (Keeps)

variable {T : Type}

namespace Opener

def Repacked (o o' : Opener T) : Prop :=
  ∃ packed, o' = { o with aggregator := { o.aggregator with packed } }

namespace Repacked

variable {o o' : Opener T}

theorem refl (o : Opener T) : o.Repacked o := ⟨o.aggregator.packed, rfl⟩

theorem setTopology (h : o.Repacked o') (field : Config.Field) (n : Nat) :
    (o.setTopology field n).Repacked (o'.setTopology field n) := by
  obtain ⟨packed, rfl⟩ := h
  cases field <;> exact ⟨packed, rfl⟩

theorem start (h : o.Repacked o') : o.start.Repacked o'.start := by
  obtain ⟨packed, rfl⟩ := h
  exact ⟨packed, rfl⟩

theorem record (h : o.Repacked o') : o.record.Repacked o'.record := by
  obtain ⟨packed, rfl⟩ := h
  exact ⟨packed, rfl⟩

theorem addWaiting (h : o.Repacked o') (mac opened : T) :
    (o.addWaiting mac opened).Repacked (o'.addWaiting mac opened) := by
  obtain ⟨packed, rfl⟩ := h
  exact ⟨packed, rfl⟩

theorem prepare (h : o.Repacked o') (share : Share T) (len : Option Nat) :
    (o.prepare share len).Repacked (o'.prepare share len) := by
  have hphase : o'.phase = o.phase := by
    obtain ⟨packed, rfl⟩ := h
    rfl
  by_cases hp : o.phase = .accumulating
  · rw [prepare_eq_append hp, prepare_eq_append (hphase.trans hp)]
    obtain ⟨packed, rfl⟩ := h
    exact ⟨packed, rfl⟩
  · rw [prepare_eq_single hp, prepare_eq_single (hphase ▸ hp)]
    obtain ⟨packed, rfl⟩ := h
    exact ⟨packed, rfl⟩

theorem prepareAll (h : o.Repacked o') (shares : List (Share T)) :
    (shares.foldl (fun o share => o.prepare share none) o).Repacked
      (shares.foldl (fun o share => o.prepare share none) o') := by
  induction shares generalizing o o' with
  | nil => exact h
  | cons share rest ih => exact ih (h.prepare share none)

end Repacked

variable [MacElement T] {o o' : Opener T} (player : Player)

theorem sumShares_rel (h : o.Repacked o') :
    (sumShares player o).Rel (fun x y => x.1 = y.1 ∧ x.2.Repacked y.2) (sumShares player o') := by
  obtain ⟨packed, rfl⟩ := h
  unfold sumShares
  cases hmode : o.mode with
  | aggregated => exact Aggregator.sumEach_rel ⟨packed, rfl⟩
  | direct =>
    refine Protocol.Rel.bind (Protocol.Rel.refl (R := Eq) (fun _ => rfl) _) ?_
    rintro ⟨r, s⟩ _ rfl
    exact .done ⟨rfl, packed, rfl⟩

theorem exchangeShares_keeps : Keeps Repacked (exchangeShares (T := T) player) := by
  intro o o' h
  rw [Opener.exchangeShares, Action.run_bind_done (Action.run_get o),
    Action.run_bind_done (Action.run_get o')]
  refine Protocol.Rel.bind (Protocol.Rel.bind (sumShares_rel player h) (S := fun x y =>
    ∃ r opened a b, a.Repacked b ∧ x = (.ok ((r, opened), a), o) ∧
      y = (.ok ((r, opened), b), o')) ?_) ?_
  · rintro ⟨⟨r, opened⟩, a⟩ ⟨_, b⟩ ⟨rfl, hab⟩
    exact .done ⟨r, opened, a, b, hab, rfl, rfl⟩
  · obtain ⟨packed, rfl⟩ := h
    rintro _ _ ⟨r, opened, a, b, ⟨packed', rfl⟩, rfl, rfl⟩
    cases r with
    | ok _ => exact .done ⟨rfl, packed', rfl⟩
    | error e => exact .done ⟨rfl, packed', rfl⟩

variable [Wire T]

theorem check_keeps : Keeps Repacked (check (T := T) player) := by
  refine Keeps.takeOut (g := clearWaiting) ?_ ?_ ?_
  all_goals rintro o _ ⟨packed, rfl⟩
  · exact Iff.rfl
  · exact ⟨packed, rfl⟩
  · exact ⟨rfl, (Keeps.ofInteraction _).bind fun g => .ofInteraction _⟩

end Opener

namespace RingOpener

namespace Repacked

variable {o o' : RingOpener T}

theorem start (h : o.Repacked o') : o.start.Repacked o'.start := by
  obtain ⟨packed, rfl⟩ := h
  exact ⟨packed, rfl⟩

variable [RingElement T]

theorem record (h : o.Repacked o') : o.record.Repacked o'.record := by
  obtain ⟨packed, rfl⟩ := h
  exact ⟨packed, rfl⟩

theorem prepare (h : o.Repacked o') (share : Share T) :
    (o.prepare share).Repacked (o'.prepare share) := by
  have hphase : o'.base.phase = o.base.phase := by
    obtain ⟨packed, rfl⟩ := h
    rfl
  by_cases hp : o.base.phase = .accumulating
  · rw [prepare_collects hp, prepare_collects (hphase.trans hp)]
    obtain ⟨packed, rfl⟩ := h
    exact ⟨packed, rfl⟩
  · rw [prepare_start hp, prepare_start fun hp' => hp (hphase.symm.trans hp'),
      prepare_collects (o := o.start) rfl, prepare_collects (o := o'.start) rfl]
    obtain ⟨packed, rfl⟩ := h
    exact ⟨packed, rfl⟩

theorem prepareAll (h : o.Repacked o') (shares : List (Share T)) :
    (shares.foldl RingOpener.prepare o).Repacked (shares.foldl RingOpener.prepare o') := by
  induction shares generalizing o o' with
  | nil => exact h
  | cons share rest ih => exact ih (h.prepare share)

end Repacked

theorem takeMask_keeps : Keeps Repacked (takeMask (T := T)) := by
  rintro ⟨base, masks, pendingShares, waitingShares⟩ _ ⟨packed, rfl⟩
  rcases masks with _ | _ | ⟨mask, rest⟩
  all_goals exact .done ⟨rfl, packed, rfl⟩

variable [RingElement T] (player : Player)

theorem exchangeShares_keeps : Keeps Repacked (exchangeShares (T := T) player) := by
  refine Keeps.tryCatch (Keeps.zoom (S := Opener.Repacked) (Opener.exchangeShares_keeps player)
    ?_ ?_) fun e => (Keeps.modify ?_).bind fun _ => .throw e
  · rintro o _ ⟨packed, rfl⟩
    exact ⟨packed, rfl⟩
  · rintro o _ ⟨_, rfl⟩ u _ ⟨packed, rfl⟩
    exact ⟨packed, rfl⟩
  · rintro o _ ⟨packed, rfl⟩
    exact ⟨packed, rfl⟩

theorem sumOne_keeps (value : T) :
    Keeps Repacked (onBase (T := T) (Action.zoom (·.aggregator)
      (fun o aggregator => { o with aggregator }) (Aggregator.sumOne player value))) := by
  refine Keeps.zoom (S := Opener.Repacked) (Keeps.zoom (Aggregator.sumOne_keeps player value)
    ?_ ?_) ?_ ?_
  · rintro o _ ⟨packed, rfl⟩
    exact ⟨packed, rfl⟩
  · rintro o _ ⟨_, rfl⟩ u _ ⟨packed, rfl⟩
    exact ⟨packed, rfl⟩
  · rintro o _ ⟨packed, rfl⟩
    exact ⟨packed, rfl⟩
  · rintro o _ ⟨_, rfl⟩ u _ ⟨packed, rfl⟩
    exact ⟨packed, rfl⟩

variable [Wire T] [DecidableEq T]

theorem check_keeps : Keeps Repacked (check (T := T) player) := by
  refine Keeps.takeOut (g := clearWaiting) ?_ ?_ ?_
  all_goals rintro o _ ⟨packed, rfl⟩
  · exact Iff.rfl
  · exact ⟨packed, rfl⟩
  · refine ⟨rfl, ?_⟩
    split
    · refine takeMask_keeps.bind fun mask => (Keeps.ofInteraction _).bind fun g =>
        (sumOne_keeps player _).bind fun opened => ?_
      split
      · exact .ofInteraction _
      · exact .throw _
    · exact .throw _

end RingOpener

end AuthShares
