import AuthShares.Network.Attendance

/-!
# One party on a network

A party carries out a row of programs, each starting from the state in which the one
before it left off, and keeps their results. It moves when its current action makes
progress. Every move brings it closer to its end, so no party moves forever. When the
group of its action is not over after a look at it, the party waits for its next turn.
-/

set_option autoImplicit false

namespace AuthShares

inductive Progress where
  | fresh
  | begun (group : Group)

inductive Party (σ ρ : Type) where
  | finished (results : List ρ)
  | running (results : List ρ) (program : Protocol (ρ × σ)) (rest : List (σ → Protocol (ρ × σ)))
      (progress : Progress)

def Progress.left {α : Type} (p : Protocol α) : Progress → Nat
  | .fresh =>
    match p with
    | .scatter _ _ messages _ => (Group.ofMessages messages).left + 1
    | .gather _ _ sources _ _ => (Group.ofSources sources).left + 1
    | _ => 0
  | .begun group => group.left

namespace Party

variable {σ ρ : Type}

def resume (results : List ρ) (s : σ) : List (σ → Protocol (ρ × σ)) → Party σ ρ
  | [] => .finished results
  | program :: rest => .running results (program s) rest .fresh

def results : Party σ ρ → List ρ
  | .finished results => results.reverse
  | .running results _ _ _ => results.reverse

def isFinished : Party σ ρ → Bool
  | .finished _ => true
  | .running .. => false

inductive After : Party σ ρ → Party σ ρ → Prop where
  | resume (results : List ρ) (r : ρ) (s : σ) (rest : List (σ → Protocol (ρ × σ)))
      (progress : Progress) :
      After (.resume (r :: results) s rest) (.running results (.done (r, s)) rest progress)
  | next (results : List ρ) (p q : Protocol (ρ × σ)) (rest : List (σ → Protocol (ρ × σ)))
      (progress : Progress) (h : Protocol.Next q p) :
      After (.running results q rest .fresh) (.running results p rest progress)
  | progress (results : List ρ) (p : Protocol (ρ × σ)) (rest : List (σ → Protocol (ρ × σ)))
      (old new : Progress) (h : new.left p < old.left p) :
      After (.running results p rest new) (.running results p rest old)

theorem acc_finished (results : List ρ) : Acc After (.finished results : Party σ ρ) :=
  ⟨_, fun _ h => nomatch h⟩

theorem acc_running (rest : List (σ → Protocol (ρ × σ))) :
    ∀ (p : Protocol (ρ × σ)) (results : List ρ) (progress : Progress),
      Acc After (.running results p rest progress : Party σ ρ) := by
  induction rest with
  | nil =>
    intro p
    induction p using Protocol.next_wellFounded.induction with
    | _ p ih =>
      intro results progress
      induction hn : progress.left p using Nat.strongRecOn generalizing progress with
      | _ n ihn =>
        refine ⟨_, fun q h => ?_⟩
        cases h with
        | resume => exact acc_finished _
        | next _ _ q _ _ h => exact ih q h _ _
        | progress _ _ _ _ new h => exact ihn _ (hn ▸ h) new rfl
  | cons f rest ihr =>
    intro p
    induction p using Protocol.next_wellFounded.induction with
    | _ p ih =>
      intro results progress
      induction hn : progress.left p using Nat.strongRecOn generalizing progress with
      | _ n ihn =>
        refine ⟨_, fun q h => ?_⟩
        cases h with
        | resume => exact ihr _ _ _
        | next _ _ q _ _ h => exact ih q h _ _
        | progress _ _ _ _ new h => exact ihn _ (hn ▸ h) new rfl

theorem after_wellFounded : WellFounded (@After σ ρ) := by
  constructor
  intro p
  cases p with
  | finished results => exact acc_finished results
  | running results p rest progress => exact acc_running rest p results progress

structure Move (old : Party σ ρ) where
  party : Party σ ρ
  after : After party old
  waits : Bool

structure Step (old : Party σ ρ) where
  links : Links
  agenda : Agenda
  entropy : Generator
  events : List Event
  move : Option (Move old)

def goOn (results : List ρ) (p q : Protocol (ρ × σ)) (rest : List (σ → Protocol (ρ × σ)))
    (progress : Progress) (h : Protocol.Next q p) : Move (.running results p rest progress) :=
  ⟨.running results q rest .fresh, .next _ _ _ _ _ h, false⟩

def getCloser (results : List ρ) (p : Protocol (ρ × σ)) (rest : List (σ → Protocol (ρ × σ)))
    (old new : Progress) : Option (Move (.running results p rest old)) :=
  if h : new.left p < old.left p then
    some ⟨.running results p rest new, .progress _ _ _ _ _ h, true⟩
  else
    none

def attend (e : Errand) (links : Links) (agenda : Agenda) (parts : Group) : Progress → Attendance
  | .fresh => parts.start e links
  | .begun group => group.resume e links agenda

def step (me : Nat) (links : Links) (agenda : Agenda) (entropy : Generator) :
    (p : Party σ ρ) → Step p
  | .finished _ => ⟨links, agenda, entropy, [], none⟩
  | .running results (.done (r, s)) rest _ =>
    ⟨links, agenda, entropy, [], some ⟨.resume (r :: results) s rest, .resume .., false⟩⟩
  | .running results (.draw next) rest progress =>
    let (bs, entropy) := Generator.entropy32.run entropy
    ⟨links, agenda, entropy, [], some (goOn results _ (next bs) rest progress (.draw ..))⟩
  | .running results (.scatter settlement phase messages next) rest progress =>
    let a := attend ⟨me, settlement, phase, fun _ => .ok ()⟩ links agenda (.ofMessages messages)
      progress
    ⟨a.links, a.agenda, entropy, a.events,
      match a.group.outcome? settlement with
      | some r => some (goOn results _ (next (r.map fun _ => ())) rest progress (.scatter ..))
      | none => getCloser results _ rest progress (.begun a.group)⟩
  | .running results (.gather settlement phase sources accept next) rest progress =>
    let a := attend ⟨me, settlement, phase, accept⟩ links agenda (.ofSources sources) progress
    ⟨a.links, a.agenda, entropy, a.events,
      match a.group.outcome? settlement with
      | some r => some (goOn results _ (next r) rest progress (.gather ..))
      | none => getCloser results _ rest progress (.begun a.group)⟩

end Party

end AuthShares
