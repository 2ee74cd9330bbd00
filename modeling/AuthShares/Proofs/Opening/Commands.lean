import AuthShares.Proofs.Opening.Counts
import AuthShares.Proofs.Opening.Repacking

/-!
# Commands of an opener

Commands are the operations of an opener, and changes to the topology of its aggregator. An opener
carries them out as machines do that check from time to time.
-/

set_option autoImplicit false

namespace AuthShares

open Action (Keeps)

inductive Command (T : Type) [Element T] where
  | operate (operation : Operation T)
  | setTopology (field : Config.Field) (n : Nat)

namespace Command

variable {T : Type} [Element T]

def kind : Command T → Kind
  | setTopology field n => .setTopology field n
  | operate (.start _ _) => .start
  | operate (.prepare _ len) => .prepare len
  | operate .exchange => .exchange
  | operate .finish => .finish
  | operate (.openAll shares) => .openAll shares.length none
  | operate (.openOne _) => .openAll 1 none
  | operate (.addToCheck _ _) => .addToCheck
  | operate .check => .check
  | operate .checkIfDue => .checkIfDue

/-- What a command adds to the batch, or to what waits, before anything is opened. -/
def gather : Command T → Opener T → Opener T
  | operate (.start count _) => fun o => (o.startFor? count).getD o
  | operate (.prepare share len) => (·.prepare share len)
  | operate (.openAll shares) => fun o =>
    shares.foldl (fun o share => o.prepare share none) o.start
  | operate (.openOne share) => fun o =>
    [share].foldl (fun o share => o.prepare share none) o.start
  | operate (.addToCheck share opened) => (·.addWaiting share.mac opened)
  | setTopology field n => (·.setTopology field n)
  | _ => id

def Opens : Command T → Bool
  | operate .exchange => true
  | operate (.openAll _) => true
  | operate (.openOne _) => true
  | _ => false

/-- The command starts a batch, whatever there was before, unless shares are being collected. -/
def Begins : Command T → Prop
  | operate (.start _ _) => True
  | operate (.prepare _ _) => True
  | operate (.openAll _) => True
  | operate (.openOne _) => True
  | _ => False

variable {T : Type} [MacElement T] [Wire T] (player : Player)

def run : Command T → Action (Opener T) (List T)
  | operate operation => operation.run player
  | setTopology field n => do
    modify (·.setTopology field n)
    return []

def runAll : List (Command T) →
    StateT (Opener T) Protocol (List (Except Error (List T) × Nat))
  | [] => return []
  | c :: rest => do
    let r ← (c.run player).run
    let o ← getThe (Opener T)
    let rs ← runAll rest
    return (r, o.waiting) :: rs

end Command

namespace Opener

variable {T : Type} [MacElement T] [Wire T] {player : Player}

def openPending (player : Player) : Action (Opener T) Unit := do
  exchangeShares player
  modify record

def machine (player : Player) : Machine (Opener T) (Command T) (List T) where
  collect c := do
    modify c.gather
    if c.Opens then openPending player else return ()
  occasion c := c.kind.occasion
  check := check player
  handOut
    | .operate .finish => finish
    | .operate (.openAll _) => finish
    | .operate (.openOne share) => fun o => ([o.opened.headD share.value], o.finish.2)
    | _ => fun o => ([], o)
  waiting := waiting
  checkAfter := checkAfter

/-- What the opener does is what the machine does. -/
theorem machine_run (c : Command T) : (machine player).run c = c.run player := by
  cases c with
  | setTopology field n => rfl
  | operate operation =>
    cases operation with
    | exchange | openAll _ | openOne _ =>
      simp only [Machine.run, machine, openPending, Command.Opens, ↓reduceIte, Command.run,
        Operation.run, openOne, openAll, exchange, bind_assoc]
      rfl
    | _ => rfl

theorem noteAll_map (player : Player) (commands : List (Command T)) :
    List.map (fun x => (x.result, x.waiting)) <$> (machine player).noteAll commands =
      Command.runAll player commands := by
  induction commands with
  | nil => rfl
  | cons c rest ih =>
    rw [Machine.noteAll_cons_map, ih, machine_run]
    rfl

omit [Wire T] in
theorem Repacked.gather {o o' : Opener T} (h : o.Repacked o') (c : Command T) :
    (c.gather o).Repacked (c.gather o') := by
  cases c with
  | setTopology field n => exact h.setTopology field n
  | operate operation =>
    cases operation with
    | start count room =>
      simp only [Command.gather, startFor_eq _ room]
      exact h.start
    | prepare share len => exact h.prepare share len
    | openAll shares => exact h.start.prepareAll shares
    | openOne share => exact h.start.prepareAll [share]
    | addToCheck share opened => exact h.addWaiting share.mac opened
    | _ => exact h

theorem machine_ignores : (machine (T := T) player).Ignores Repacked where
  collect c := by
    refine (Keeps.modify (R := Repacked) fun _ _ h => h.gather c).bind fun _ => ?_
    split
    · exact (exchangeShares_keeps player).bind fun _ => Keeps.modify fun _ _ h => Repacked.record h
    · exact .pure ()
  check := check_keeps player
  handOut c o o' h := by
    obtain ⟨packed, rfl⟩ := h
    rcases c with (_ | _ | _ | _ | _ | _ | _ | _ | _) | _
    all_goals exact ⟨rfl, packed, rfl⟩
  waiting o o' h := by
    obtain ⟨packed, rfl⟩ := h
    rfl
  checkAfter o o' h := by
    obtain ⟨packed, rfl⟩ := h
    rfl

omit [Wire T] in
theorem shape_openPending {o o' : Opener T} {r : Except Error Unit}
    (h : (openPending player).Ends o r o') :
    (∃ a, r = .ok a) ∧ o'.shape = o.shape.record ∨
      (∃ e, r = .error e) ∧ o'.shape = o.shape.clear .idle := by
  obtain ⟨_, u, hshares, h⟩ | ⟨e, hshares, rfl⟩ := Action.ends_bind.mp h
  · obtain ⟨opened, packed, -, hlen, rfl⟩ | ⟨e, packed, he, -⟩ := exchangeShares_ends hshares
    · cases h
      refine .inl ⟨⟨_, rfl⟩, ?_⟩
      rw [shape_record, shape_replace o hlen ⟨packed, rfl⟩]
    · cases he
  · obtain ⟨_, _, hr, -⟩ | ⟨_, packed, -, rfl⟩ := exchangeShares_ends hshares
    · cases hr
    · exact .inr ⟨⟨e, rfl⟩, rfl⟩

omit [Wire T] in
theorem shape_openAll {o o' : Opener T} {shares : List (Share T)} {r : Except Error Unit}
    (h : (openPending player).Ends
      (shares.foldl (fun o share => o.prepare share none) o.start) r o') :
    (∃ a, r = .ok a) ∧ o'.shape = (Kind.openAll shares.length none).collect o.shape ∨
      (∃ e, r = .error e) ∧ o'.shape = o.shape.clear .idle := by
  have hends := shape_openPending h
  rw [shape_prepareAll, Kind.clear_prepareAll] at hends
  exact hends

theorem shape_collect {c : Command T} {o o' : Opener T} {r : Except Error Unit}
    (h : ((machine player).collect c).Ends o r o') :
    (∃ a, r = .ok a) ∧ o'.shape = c.kind.collect o.shape ∨
      (∃ e, r = .error e) ∧ o'.shape = o.shape.clear .idle := by
  replace h := Action.ends_modify_bind.mp h
  cases c with
  | setTopology field n =>
    cases h
    exact .inl ⟨⟨_, rfl⟩, shape_setTopology o field n⟩
  | operate operation =>
    cases operation with
    | start count room =>
      cases h
      refine .inl ⟨⟨_, rfl⟩, ?_⟩
      simp only [Command.gather, startFor_eq _ room]
      exact shape_clear o _
    | prepare share len =>
      cases h
      exact .inl ⟨⟨_, rfl⟩, shape_prepare o share len⟩
    | exchange => exact shape_openPending h
    | openAll shares => exact shape_openAll h
    | openOne share => exact shape_openAll h
    | addToCheck share opened =>
      cases h
      exact .inl ⟨⟨_, rfl⟩, shape_addWaiting o _ _⟩
    | _ =>
      cases h
      exact .inl ⟨⟨(), rfl⟩, rfl⟩

theorem machine_counted : (machine (T := T) player).Counted shape Command.kind where
  waiting o := (waiting_shape o).symm
  checkAfter _ := rfl
  occasion _ := rfl
  collects h := by
    obtain ⟨-, h⟩ | ⟨⟨e, he⟩, -⟩ := shape_collect h
    · exact h
    · cases he
  breaks h := by
    obtain ⟨⟨a, ha⟩, -⟩ | ⟨-, h⟩ := shape_collect h
    · cases ha
    · exact h
  checks {o o' r} h := by rw [check_ends h, shape_clearWaiting]
  handsOut c o := by
    rcases c with (_ | _ | _ | _ | _ | _ | _ | _ | _) | _
    all_goals rfl

end Opener

end AuthShares
