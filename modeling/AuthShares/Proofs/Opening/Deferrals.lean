import AuthShares.Proofs.Opening.Commands
import AuthShares.Proofs.Opening.RingCommands

/-!
# How long checks are deferred

Whatever is done with an opener, in whatever order, and whatever comes of it, after each command
fewer values wait than make a check due. As long as all commands succeed the players make their
checks at the same commands, though none of them tells the others.
-/

set_option autoImplicit false

namespace AuthShares

theorem Opener.bounded_new {T : Type} (mode : ExchangeMode) (keyShare : T) (c : Config) :
    (new mode keyShare c).Bounded := Bounded.clearWaiting (new mode keyShare c)

/-- Remarks are made without changing what is done. After each command fewer values wait than make a
check due, and none if it is due even without any. Players that carry out commands of the same kinds
concur in the checks that they make and in how many values wait. -/
theorem checks_deferred {T R : Type} [MacElement T] [Wire T] [RingElement R] [Wire R]
    [DecidableEq R] (mode : ExchangeMode) (c : Config) (p q : Player) :
    ((∀ commands : List (Command T), List.map (fun x => (x.result, x.waiting)) <$>
          (Opener.machine p).noteAll commands = Command.runAll p commands) ∧
      ∀ key key' : T,
        (Opener.machine p).StaysBelow (max 1 c.checkAfter) (.new mode key c) ∧
        (Opener.machine p).Concurs (Opener.machine q) Command.kind (.new mode key c)
          (.new mode key' c)) ∧
    (∀ commands : List (RingCommand R), List.map (fun x => (x.result, x.waiting)) <$>
          (RingOpener.machine p).noteAll commands = RingCommand.runAll p commands) ∧
      ∀ key key' : R,
        (RingOpener.machine p).StaysBelow (max 1 c.checkAfter) (.new mode key c) ∧
        (RingOpener.machine p).Concurs (RingOpener.machine q) RingCommand.kind (.new mode key c)
          (.new mode key' c) := by
  refine ⟨⟨Opener.noteAll_map p, fun key key' => ?_⟩, RingOpener.noteAll_map p, fun key key' => ?_⟩
  · have hbounded := Opener.bounded_new mode () c
    exact ⟨Opener.machine_counted.staysBelow hbounded,
      Opener.machine_counted.concurs Opener.machine_counted rfl⟩
  · have hbounded := Opener.bounded_new mode () c
    exact ⟨RingOpener.machine_counted.staysBelow hbounded,
      RingOpener.machine_counted.concurs RingOpener.machine_counted rfl⟩

/-- Two players add a value and then another one, which makes a check due. Both are cut off in it,
at their first message. -/
theorem checks_deferred_cutOff :
    ∃ xs ys : List (Remark (List Mersenne61)),
      xs.map (·.course) = [.unchecked, .checked] ∧ ys.map (·.course) = [.unchecked, .checked] ∧
      xs.map (·.waiting) = [1, 0] ∧ (∀ x ∈ xs, x.waiting < 2) ∧ Remark.Concur xs ys := by
  let p : Player := ⟨0, 2, by decide⟩
  let q : Player := ⟨1, 2, by decide⟩
  let c : Config := ⟨0, 0, 0, 2⟩
  let commands (share : Share Mersenne61) : List (Command Mersenne61) :=
    [.operate (.addToCheck share ⟨5⟩), .operate (.addToCheck share ⟨5⟩)]
  let xs : List (Remark (List Mersenne61)) :=
    [⟨.ok [], .unchecked, 1⟩, ⟨.error (.channel (.send "RNG comm" .closed)), .checked, 0⟩]
  have hp : (((Opener.machine p).noteAll (commands ⟨⟨2⟩, ⟨9⟩⟩)).run
      (.new .aggregated ⟨1⟩ c)).Returns (xs, .new .aggregated ⟨1⟩ c) :=
    .draw zeroBytes (.draw zeroBytes (.scatter (.error (.send "RNG comm" .closed)) (.done _)))
  have hq : (((Opener.machine q).noteAll (commands ⟨⟨3⟩, ⟨6⟩⟩)).run
      (.new .aggregated ⟨2⟩ c)).Returns (xs, .new .aggregated ⟨2⟩ c) :=
    .draw zeroBytes (.draw zeroBytes (.scatter (.error (.send "RNG comm" .closed)) (.done _)))
  have hkinds : (commands ⟨⟨2⟩, ⟨9⟩⟩).map Command.kind =
      (commands ⟨⟨3⟩, ⟨6⟩⟩).map Command.kind := rfl
  obtain ⟨hbelow, hconcurs⟩ :=
    (checks_deferred (T := Mersenne61) (R := Ring128) .aggregated c p q).1.2 ⟨1⟩ ⟨2⟩
  exact ⟨xs, xs, rfl, rfl, rfl, (hbelow _ _ _ hp).2, hconcurs _ _ _ _ _ _ hkinds hp hq⟩

end AuthShares
