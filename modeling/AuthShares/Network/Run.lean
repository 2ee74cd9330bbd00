import AuthShares.Network.Party

/-!
# Running all parties

In every round each party has its turn, in ascending order, and moves until it has to
wait. When nobody can move, the waits for messages become overdue. The run is over when
all parties have ended, or when nobody can move although the waits are overdue; a party
that has not finished by then waits for room in a full queue.
-/

set_option autoImplicit false

namespace AuthShares

structure Member (σ ρ : Type) where
  party : Party σ ρ
  entropy : Generator
  agenda : Agenda
  trace : List Event

namespace Member

variable {σ ρ : Type}

def entropyOf (word : Nat) (party : Nat) : Generator :=
  ⟨6, ⟨(toLittleEndian 8 word ++ toLittleEndian 8 party ++ List.replicate 16 0).toArray,
    by simp⟩, 0⟩

def start (word party : Nat) (s : σ) (programs : List (σ → Protocol (ρ × σ))) : Member σ ρ :=
  ⟨.resume [] s programs, entropyOf word party, .empty, []⟩

def events (m : Member σ ρ) : List Event := m.trace.reverse

def bytesSent (m : Member σ ρ) : Nat :=
  m.trace.foldl (fun n e => match e with | .sent _ _ bs => n + bs.length | .awaited .. => n) 0

abbrev Later : Party σ ρ → Party σ ρ → Prop := Relation.TransGen Party.After

inductive Turned (m : Member σ ρ) where
  | still (m' : Member σ ρ) (h : m'.party = m.party)
  | moved (m' : Member σ ρ) (h : Later m'.party m.party)

def turn (me : Nat) (links : Links) (m : Member σ ρ) : Links × Turned m :=
  let step := m.party.step me links m.agenda m.entropy
  match step.move with
  | none => (step.links, .still { m with agenda := step.agenda } rfl)
  | some move =>
    let m' : Member σ ρ :=
      ⟨move.party, step.entropy, step.agenda, step.events ++ m.trace⟩
    if move.waits then
      (step.links, .moved m' (.single move.after))
    else
      match turn me step.links m' with
      | (links, .still m'' h) => (links, .moved m'' (h ▸ .single move.after))
      | (links, .moved m'' h) => (links, .moved m'' (.trans h (.single move.after)))
termination_by Party.after_wellFounded.wrap m.party
decreasing_by exact move.after

end Member

inductive RowLater {σ ρ : Type} : List (Party σ ρ) → List (Party σ ρ) → Prop where
  | head {p p' : Party σ ρ} {ps ps' : List (Party σ ρ)} (h : Member.Later p' p)
      (hl : ps'.length = ps.length) : RowLater (p' :: ps') (p :: ps)
  | tail {p : Party σ ρ} {ps ps' : List (Party σ ρ)} (h : RowLater ps' ps) :
      RowLater (p :: ps') (p :: ps)

namespace RowLater

variable {σ ρ : Type}

theorem length_eq {ps ps' : List (Party σ ρ)} (h : RowLater ps' ps) : ps'.length = ps.length := by
  induction h with
  | head _ hl => simp [hl]
  | tail _ ih => simp [ih]

theorem acc_cons (n : Nat) (hn : ∀ ps : List (Party σ ρ), ps.length = n → Acc RowLater ps)
    (p : Party σ ρ) (ps : List (Party σ ρ)) (h : ps.length = n) : Acc RowLater (p :: ps) := by
  induction Party.after_wellFounded.transGen.apply p generalizing ps with
  | intro p _ ihp =>
    induction hn ps h with
    | intro ps _ ihs =>
      refine ⟨_, fun row hr => ?_⟩
      cases hr with
      | head ha hl => exact ihp _ ha _ (hl.trans h)
      | tail ht => exact ihs _ ht (ht.length_eq.trans h)

theorem wellFounded : WellFounded (@RowLater σ ρ) := by
  constructor
  intro ps
  induction hn : ps.length generalizing ps with
  | zero =>
    rw [List.length_eq_zero_iff.mp hn]
    exact ⟨_, fun _ h => nomatch h⟩
  | succ n ih =>
    match ps, hn with
    | p :: ps, hn => exact acc_cons n ih p ps (by simpa using hn)

end RowLater

namespace Network

variable {σ ρ : Type}

def parties (ms : List (Member σ ρ)) : List (Party σ ρ) := ms.map (·.party)

inductive Swept (ms : List (Member σ ρ)) where
  | still (ms' : List (Member σ ρ)) (h : parties ms' = parties ms)
  | moved (ms' : List (Member σ ρ)) (h : RowLater (parties ms') (parties ms))

def sweep : Nat → Links → (ms : List (Member σ ρ)) → Links × Swept ms
  | _, links, [] => (links, .still [] rfl)
  | i, links, m :: ms =>
    match m.turn i links with
    | (links, .still m' h) =>
      match sweep (i + 1) links ms with
      | (links, .still ms' hs) => (links, .still (m' :: ms') (by simp_all [parties]))
      | (links, .moved ms' hs) =>
        (links, .moved (m' :: ms') (by simpa [parties, h] using RowLater.tail hs))
    | (links, .moved m' h) =>
      match sweep (i + 1) links ms with
      | (links, .still ms' hs) =>
        (links, .moved (m' :: ms') (.head h (congrArg List.length hs)))
      | (links, .moved ms' hs) => (links, .moved (m' :: ms') (.head h hs.length_eq))

/-- Spends one transfer for each party that has not finished, as it is given up. -/
def giveUp (ms : List (Member σ ρ)) (links : Links) : Links :=
  ms.foldl (fun links m => if m.party.isFinished then links else links.spend) links

def settle (links : Links) (ms : List (Member σ ρ)) : Links × List (Member σ ρ) :=
  if ms.all (·.party.isFinished) then
    (links, ms)
  else
    match sweep 0 links.nextRound ms with
    | (links, .moved ms' _) => settle links ms'
    | (links, .still ms' _) =>
      match sweep 0 links.nextRound.tick ms' with
      | (links, .moved ms'' _) => settle links ms''
      | (links, .still ms'' _) => (giveUp ms'' links.nextRound, ms'')
termination_by RowLater.wellFounded.wrap (parties ms)
decreasing_by
  · assumption
  · simp_all

/-- Runs all parties. The first round has what is left of the transfers of the last one. -/
def run (links : Links) (ms : List (Member σ ρ)) : Links × List (Member σ ρ) :=
  match sweep 0 links ms with
  | (links, .still ms' _) => settle links ms'
  | (links, .moved ms' _) => settle links ms'

end Network

end AuthShares
