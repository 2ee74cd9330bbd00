import AuthShares.Proofs.Opening.Results
import AuthShares.Proofs.Opening.RingLedger

/-!
# What an operation over the ring can come to

Whatever the network does, a batch over the ring is opened, or discarded together with the shares
behind it. A check changes nothing but what waits for it, and takes one mask, or none if it does
not get as far as to use one.
-/

set_option autoImplicit false

namespace AuthShares

namespace RingOpener

variable {T : Type}

def Repacked (o o' : RingOpener T) : Prop :=
  ∃ packed, o' = { o with
    base := { o.base with aggregator := { o.base.aggregator with packed } } }

namespace Repacked

variable {o u o' : RingOpener T}

theorem refl (o : RingOpener T) : o.Repacked o := ⟨o.base.aggregator.packed, rfl⟩

theorem symm (h : o.Repacked o') : o'.Repacked o := by
  obtain ⟨_, rfl⟩ := h
  exact ⟨o.base.aggregator.packed, rfl⟩

theorem trans (h : o.Repacked u) (h' : u.Repacked o') : o.Repacked o' := by
  obtain ⟨_, rfl⟩ := h
  obtain ⟨packed, rfl⟩ := h'
  exact ⟨packed, rfl⟩

end Repacked

def clearWaiting (o : RingOpener T) : RingOpener T :=
  { o with base := o.base.clearWaiting, waitingShares := [] }

def dropMask (o : RingOpener T) : RingOpener T := { o with masks := o.masks.map List.tail }

def checked (o : RingOpener T) : RingOpener T :=
  if o.waiting = 0 then o else if o.Even then o.clearWaiting.dropMask else o.clearWaiting

theorem checked_base (o : RingOpener T) : o.checked.base = o.base.clearWaiting := by
  unfold checked
  split_ifs with hzero
  · exact (Opener.clearWaiting_of_waiting_eq_zero hzero).symm
  · rfl
  · rfl

theorem takeMask_ends {o o' : RingOpener T} {r : Except Error (Share T)}
    (h : takeMask.Ends o r o') : o' = o.dropMask := by
  obtain ⟨base, masks, pendingShares, waitingShares⟩ := o
  replace h := Action.ends_get_bind.mp h
  rcases masks with _ | _ | ⟨mask, rest⟩
  all_goals
    cases h
    rfl

def Repacks {α : Type} (m : Action (RingOpener T) α) : Prop :=
  ∀ o r o', m.Ends o r o' → o.Repacked o'

namespace Repacks

variable {α β : Type}

theorem throw (e : Error) : Repacks (MonadExcept.throw e : Action (RingOpener T) α) := by
  rintro o r o' ⟨⟩
  exact .refl o

theorem bind {m : Action (RingOpener T) α} {f : α → Action (RingOpener T) β}
    (hm : Repacks m) (hf : ∀ a, Repacks (f a)) : Repacks (m >>= f) := by
  intro o r o' h
  obtain ⟨a, u, hends, h⟩ | ⟨e, hends, -⟩ := Action.ends_bind.mp h
  · exact (hm _ _ _ hends).trans (hf a _ _ _ h)
  · exact hm _ _ _ hends

theorem interaction (m : Interaction α) : Repacks (liftM m : Action (RingOpener T) α) := by
  intro o r o' h
  rw [Action.ends_interaction h]
  exact .refl o

theorem sumOne [RingElement T] (player : Player) (value : T) :
    Repacks (onBase (T := T) (Action.zoom (·.aggregator)
      (fun o aggregator => { o with aggregator }) (Aggregator.sumOne player value))) := by
  intro o r o' h
  obtain ⟨base, hbase, rfl⟩ := Action.ends_zoom h
  obtain ⟨aggregator, hsum, rfl⟩ := Action.ends_zoom hbase
  obtain ⟨packed, rfl⟩ := Aggregator.sumOne_ends hsum
  exact ⟨packed, rfl⟩

end Repacks

variable [RingElement T] {player : Player} {o o' : RingOpener T} {r : Except Error Unit}

theorem exchangeShares_ends (h : (exchangeShares player).Ends o r o') :
    (∃ opened packed, r = .ok () ∧ opened.length = o.base.opened.length ∧ o' = { o with
        base := { o.base with opened, aggregator := { o.base.aggregator with packed } } }) ∨
      ∃ e packed, r = .error e ∧ o' = { o with
        base := { o.base with aggregator := { o.base.aggregator with packed } }.clear .idle
        pendingShares := [] } := by
  obtain ⟨⟨r', u⟩, hbase, h⟩ := (Protocol.returns_bind
    ((onBase (Opener.exchangeShares player)).run.run o) _ _).mp h
  obtain ⟨base, hends, rfl⟩ := Action.ends_zoom hbase
  obtain ⟨opened, packed, rfl, hlen, rfl⟩ | ⟨e, packed, rfl, rfl⟩ :=
    Opener.exchangeShares_ends hends
  · cases h
    exact .inl ⟨opened, packed, rfl, hlen, rfl⟩
  · cases h
    exact .inr ⟨e, packed, rfl, rfl⟩

variable [Wire T] [DecidableEq T]

theorem check_ends_of_waiting_eq_zero (hzero : o.waiting = 0) (h : (check player).Ends o r o') :
    o' = o := by
  replace h := Action.ends_get_bind.mp h
  simp only [hzero, ↓reduceIte] at h
  cases h
  rfl

theorem check_ends (h : (check player).Ends o r o') : o.checked.Repacked o' := by
  unfold checked
  by_cases hzero : o.waiting = 0
  · rw [if_pos hzero, check_ends_of_waiting_eq_zero hzero h]
    exact .refl o
  · replace h := Action.ends_get_bind.mp h
    simp only [hzero, ↓reduceIte] at h ⊢
    replace h := Action.ends_set_bind.mp h
    split at h
    next heven =>
      rw [if_pos (show o.Even from heven)]
      obtain ⟨mask, u, htake, h⟩ | ⟨e, htake, -⟩ := Action.ends_bind.mp h
      · rw [takeMask_ends htake] at h
        refine (?_ : Repacks _) _ _ _ h
        refine (Repacks.interaction _).bind fun g => (Repacks.sumOne _ _).bind fun opened => ?_
        split
        · exact .interaction _
        · exact .throw _
      · rw [takeMask_ends htake]
        exact .refl _
    next heven =>
      rw [if_neg (show ¬ o.Even from heven)]
      exact Repacks.throw _ _ _ _ h

end RingOpener

end AuthShares
