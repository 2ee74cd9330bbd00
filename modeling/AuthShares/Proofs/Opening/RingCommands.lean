import AuthShares.Proofs.Opening.Counts
import AuthShares.Proofs.Opening.Repacking

/-!
# Commands of an opener over a ring

Over a ring the commands also set the masks. The numbers that wait are those of the opener below,
and behind every authentication that waits, or will wait after an exchange, there is a share.
-/

set_option autoImplicit false

namespace AuthShares

open Action (Keeps)

inductive RingCommand (T : Type) [Element T] where
  | operate (operation : RingOperation T)
  | setMasks (masks : List (Share T))
  | setTopology (field : Config.Field) (n : Nat)

namespace RingCommand

variable {T : Type} [RingElement T]

def kind : RingCommand T → Kind
  | setMasks _ => .setMasks
  | setTopology field n => .setTopology field n
  | operate (.start _ _) => .start
  | operate (.prepare _) => .prepare (some (RingElement.visibleBytes T))
  | operate .exchange => .exchange
  | operate .finish => .finish
  | operate (.openAll shares) => .openAll shares.length (some (RingElement.visibleBytes T))
  | operate (.addToCheck _ _) => .addToCheck
  | operate .check => .check

def gather : RingCommand T → RingOpener T → RingOpener T
  | operate (.start count _) => fun o => (o.startFor? count).getD o
  | operate (.prepare share) => (·.prepare share)
  | operate (.openAll shares) => fun o => shares.foldl RingOpener.prepare o.start
  | operate (.addToCheck share opened) => fun o =>
    { o with
      base := o.base.addWaiting share.mac (RingElement.low opened)
      waitingShares := o.waitingShares ++ [share.value] }
  | setMasks masks => (·.setMasks masks)
  | setTopology field n => (·.setTopology field n)
  | _ => id

def Opens : RingCommand T → Bool
  | operate .exchange => true
  | operate (.openAll _) => true
  | _ => false

def Begins : RingCommand T → Prop
  | operate (.start _ _) => True
  | operate (.prepare _) => True
  | operate (.openAll _) => True
  | _ => False

variable [Wire T] [DecidableEq T] (player : Player)

def run : RingCommand T → Action (RingOpener T) (List T)
  | operate operation => RingOpener.operate player operation
  | setMasks masks => do
    modify (·.setMasks masks)
    return []
  | setTopology field n => do
    modify (·.setTopology field n)
    return []

def runAll : List (RingCommand T) →
    StateT (RingOpener T) Protocol (List (Except Error (List T) × Nat))
  | [] => return []
  | c :: rest => do
    let r ← (c.run player).run
    let o ← getThe (RingOpener T)
    let rs ← runAll rest
    return (r, o.waiting) :: rs

end RingCommand

namespace RingOpener

variable {T : Type} [RingElement T] {player : Player}

def openPending (player : Player) : Action (RingOpener T) Unit := do
  exchangeShares player
  modify record

theorem Repacked.gather {o o' : RingOpener T} (h : o.Repacked o') (c : RingCommand T) :
    (c.gather o).Repacked (c.gather o') := by
  cases c with
  | setTopology field n =>
    obtain ⟨packed, rfl⟩ := h
    cases field <;> exact ⟨packed, rfl⟩
  | setMasks masks =>
    obtain ⟨packed, rfl⟩ := h
    exact ⟨packed, rfl⟩
  | operate operation =>
    cases operation with
    | start count room =>
      simp only [RingCommand.gather, startFor_eq _ room]
      exact h.start
    | prepare share => exact h.prepare share
    | openAll shares => exact h.start.prepareAll shares
    | addToCheck share opened =>
      obtain ⟨packed, rfl⟩ := h
      exact ⟨packed, rfl⟩
    | _ => exact h

theorem shape_openPending {o o' : RingOpener T} {r : Except Error Unit}
    (h : (openPending player).Ends o r o') :
    (∃ a, r = .ok a) ∧ o'.base.shape = o.base.shape.record ∨
      (∃ e, r = .error e) ∧ o'.base.shape = o.base.shape.clear .idle := by
  obtain ⟨_, u, hshares, h⟩ | ⟨e, hshares, rfl⟩ := Action.ends_bind.mp h
  · obtain ⟨opened, packed, -, hlen, rfl⟩ | ⟨e, packed, he, -⟩ := exchangeShares_ends hshares
    · cases h
      refine .inl ⟨⟨_, rfl⟩, (Opener.shape_record _).trans (congrArg Opener.record ?_)⟩
      exact o.base.shape_replace (by rw [List.length_map, hlen]) ⟨packed, rfl⟩
    · cases he
  · obtain ⟨_, _, hr, -⟩ | ⟨_, packed, -, rfl⟩ := exchangeShares_ends hshares
    · cases hr
    · exact .inr ⟨⟨e, rfl⟩, rfl⟩

variable [Wire T] [DecidableEq T]

def machine (player : Player) : Machine (RingOpener T) (RingCommand T) (List T) where
  collect c := do
    modify c.gather
    if c.Opens then openPending player else return ()
  occasion c := c.kind.occasion
  check := check player
  handOut
    | .operate .finish => finish
    | .operate (.openAll _) => finish
    | _ => fun o => ([], o)
  waiting := waiting
  checkAfter o := o.base.checkAfter

/-- What the opener does is what the machine does. -/
theorem machine_run (c : RingCommand T) : (machine player).run c = c.run player := by
  cases c with
  | setMasks masks => rfl
  | setTopology field n => rfl
  | operate operation =>
    cases operation with
    | exchange | openAll _ =>
      simp only [Machine.run, machine, openPending, RingCommand.Opens, ↓reduceIte, RingCommand.run,
        operate, openAll, exchange, bind_assoc]
      rfl
    | _ => rfl

theorem noteAll_map (player : Player) (commands : List (RingCommand T)) :
    List.map (fun x => (x.result, x.waiting)) <$> (machine player).noteAll commands =
      RingCommand.runAll player commands := by
  induction commands with
  | nil => rfl
  | cons c rest ih =>
    rw [Machine.noteAll_cons_map, ih, machine_run]
    rfl

theorem machine_ignores : (machine (T := T) player).Ignores Repacked where
  collect c := by
    refine (Keeps.modify (R := Repacked) fun _ _ h => h.gather c).bind fun _ => ?_
    split
    · exact (exchangeShares_keeps player).bind fun _ => Keeps.modify fun _ _ h => Repacked.record h
    · exact .pure ()
  check := check_keeps player
  handOut c o o' h := by
    obtain ⟨packed, rfl⟩ := h
    rcases c with (_ | _ | _ | _ | _ | _ | _) | _ | _
    all_goals exact ⟨rfl, packed, rfl⟩
  waiting o o' h := by
    obtain ⟨packed, rfl⟩ := h
    rfl
  checkAfter o o' h := by
    obtain ⟨packed, rfl⟩ := h
    rfl

theorem shape_collect {c : RingCommand T} {o o' : RingOpener T} {r : Except Error Unit}
    (h : ((machine player).collect c).Ends o r o') :
    (∃ a, r = .ok a) ∧ o'.base.shape = c.kind.collect o.base.shape ∨
      (∃ e, r = .error e) ∧ o'.base.shape = o.base.shape.clear .idle := by
  replace h := Action.ends_modify_bind.mp h
  cases c with
  | setMasks masks =>
    cases h
    exact .inl ⟨⟨_, rfl⟩, rfl⟩
  | setTopology field n =>
    cases h
    exact .inl ⟨⟨_, rfl⟩, o.base.shape_setTopology field n⟩
  | operate operation =>
    cases operation with
    | start count room =>
      cases h
      refine .inl ⟨⟨_, rfl⟩, ?_⟩
      simp only [RingCommand.gather, startFor_eq _ room]
      exact o.base.shape_clear _
    | prepare share =>
      cases h
      refine .inl ⟨⟨_, rfl⟩, ?_⟩
      show (o.prepare share).base.shape = _
      rw [prepare_base]
      exact o.base.shape_prepare share _
    | exchange => exact shape_openPending h
    | openAll shares =>
      have hends := shape_openPending h
      rw [RingCommand.gather, prepareAll_base, Opener.shape_prepareAll,
        Kind.clear_prepareAll] at hends
      exact hends
    | addToCheck share opened =>
      cases h
      exact .inl ⟨⟨_, rfl⟩, o.base.shape_addWaiting _ _⟩
    | _ =>
      cases h
      exact .inl ⟨⟨(), rfl⟩, rfl⟩

theorem machine_counted :
    (machine (T := T) player).Counted (fun o => o.base.shape) RingCommand.kind where
  waiting o := (Opener.waiting_shape o.base).symm
  checkAfter _ := rfl
  occasion _ := rfl
  collects h := by
    obtain ⟨-, h⟩ | ⟨⟨e, he⟩, -⟩ := shape_collect h
    · exact h
    · cases he
  breaks h := by
    obtain ⟨⟨a, ha⟩, -⟩ | ⟨-, h⟩ := shape_collect h
    · cases ha
    · exact h
  checks {o o' r} h := by
    obtain ⟨packed, hchecked⟩ := check_ends h
    rw [hchecked, ← Opener.shape_clearWaiting, ← checked_base]
    rfl
  handsOut c o := by
    rcases c with (_ | _ | _ | _ | _ | _ | _) | _ | _
    all_goals rfl

end RingOpener

end AuthShares
