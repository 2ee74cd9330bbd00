import AuthShares.Proofs.Network.Hostile

/-!
# Runs that look alike

Two programs are alike if they do the same, whatever comes of it, and end with values that are
alike. Parties whose programs are alike can be scheduled alike: under the same moves they send the
same messages, byte by byte, and the same is on the way between them at any time. Whoever only
sees the network does not tell them apart.
-/

set_option autoImplicit false

namespace AuthShares

variable {n : Nat} {α β γ δ σ τ ρ : Type} {capacity : Option Nat}

namespace Protocol

/-- A relation of values as one of programs: these do the same and end with related values. -/
inductive Rel (R : α → β → Prop) : Protocol α → Protocol β → Prop where
  | done {a : α} {b : β} (h : R a b) : Rel R (.done a) (.done b)
  | draw {f : Bytes32 → Protocol α} {g : Bytes32 → Protocol β} (h : ∀ r, Rel R (f r) (g r)) :
      Rel R (.draw f) (.draw g)
  | scatter {f : Except ChannelError Unit → Protocol α} {g : Except ChannelError Unit → Protocol β}
      (settlement : Settlement) (phase : String) (messages : List (Nat × Bytes))
      (h : ∀ r, Rel R (f r) (g r)) :
      Rel R (.scatter settlement phase messages f) (.scatter settlement phase messages g)
  | gather {f : Except ChannelError (List Bytes) → Protocol α}
      {g : Except ChannelError (List Bytes) → Protocol β} (settlement : Settlement)
      (phase : String) (sources : List Nat) (accept : Bytes → Except ChannelError Unit)
      (h : ∀ r, Rel R (f r) (g r)) :
      Rel R (.gather settlement phase sources accept f) (.gather settlement phase sources accept g)

theorem Rel.refl {R : α → α → Prop} (hR : ∀ a, R a a) (p : Protocol α) : Rel R p p := by
  induction p with
  | done a => exact .done (hR a)
  | draw next ih => exact .draw ih
  | scatter settlement phase messages next ih => exact .scatter settlement phase messages ih
  | gather settlement phase sources accept next ih =>
    exact .gather settlement phase sources accept ih

theorem Rel.bind {R : α → β → Prop} {S : γ → δ → Prop} {p : Protocol α} {q : Protocol β}
    {f : α → Protocol γ} {g : β → Protocol δ} (h : Rel R p q)
    (hfg : ∀ a b, R a b → Rel S (f a) (g b)) : Rel S (p.bind f) (q.bind g) := by
  induction h with
  | done h => exact hfg _ _ h
  | draw _ ih => exact .draw ih
  | scatter settlement phase messages _ ih => exact .scatter settlement phase messages ih
  | gather settlement phase sources accept _ ih => exact .gather settlement phase sources accept ih

end Protocol

def Action.Keeps (R : σ → σ → Prop) (m : Action σ α) : Prop :=
  ∀ s s', R s s' → (m.run.run s).Rel (fun x y => x.1 = y.1 ∧ R x.2 y.2) (m.run.run s')

namespace Action.Keeps

variable {R : σ → σ → Prop} {m : Action σ α} {f : α → Action σ β}

theorem pure (a : α) : Keeps R (Pure.pure a : Action σ α) := fun _ _ h => .done ⟨rfl, h⟩

theorem bind (hm : Keeps R m) (hf : ∀ a, Keeps R (f a)) : Keeps R (m >>= f) := by
  intro s s' h
  refine Protocol.Rel.bind (hm s s' h) ?_
  rintro ⟨r, u⟩ ⟨_, u'⟩ ⟨rfl, hu⟩
  cases r with
  | ok a => exact hf a u u' hu
  | error e => exact .done ⟨rfl, hu⟩

/-- What follows on a state that is read may not tell it from one that is alike. -/
theorem read {f : σ → Action σ α} (hf : ∀ s s', R s s' → f s = f s' ∧ Keeps R (f s')) :
    Keeps R (getThe σ >>= f) := fun s s' h => by
  obtain ⟨heq, hkeeps⟩ := hf s s' h
  show ((f s).run.run s).Rel _ ((f s').run.run s')
  rw [heq]
  exact hkeeps s s' h

theorem takeOut {c : σ → Prop} [∀ s, Decidable (c s)] {g : σ → σ} {f : σ → Action σ Unit}
    (hc : ∀ s s', R s s' → (c s ↔ c s')) (hg : ∀ s s', R s s' → R (g s) (g s'))
    (hf : ∀ s s', R s s' → f s = f s' ∧ Keeps R (f s')) :
    Keeps R (getThe σ >>= fun s => if c s then Pure.pure () else set (g s) >>= fun _ => f s) := by
  intro s s' h
  rw [run_bind_done (run_get s), run_bind_done (run_get s')]
  by_cases hs : c s
  · rw [if_pos hs, if_pos ((hc s s' h).mp hs)]
    exact pure () s s' h
  · rw [if_neg hs, if_neg fun hs' => hs ((hc s s' h).mpr hs'), (hf s s' h).1]
    exact (hf s s' h).2 (g s) (g s') (hg s s' h)

theorem ofInteraction (m : Interaction α) : Keeps R (Action.ofInteraction m : Action σ α) :=
  fun _ _ h => Protocol.Rel.bind (Protocol.Rel.refl (R := Eq) (fun _ => rfl) m.run)
    fun _ _ hr => hr ▸ .done ⟨rfl, h⟩

theorem link (m : Link α) : Keeps R (liftM m : Action σ α) := ofInteraction (.ofLink m)

theorem throw (e : Error) : Keeps R (MonadExcept.throw e : Action σ α) :=
  fun _ _ h => .done ⟨rfl, h⟩

theorem modify {g : σ → σ} (hg : ∀ s s', R s s' → R (g s) (g s')) :
    Keeps R (modify g : Action σ Unit) := fun s s' h => .done ⟨rfl, hg s s' h⟩

theorem tryCatch {handle : Error → Action σ α} (hm : Keeps R m) (hh : ∀ e, Keeps R (handle e)) :
    Keeps R (MonadExcept.tryCatch m handle) := by
  intro s s' h
  refine Protocol.Rel.bind (hm s s' h) ?_
  rintro ⟨r, u⟩ ⟨_, u'⟩ ⟨rfl, hu⟩
  cases r with
  | ok a => exact .done ⟨rfl, hu⟩
  | error e => exact hh e u u' hu

theorem zoom {S : τ → τ → Prop} {get : σ → τ} {set : σ → τ → σ} {m : Action τ α}
    (hm : Keeps S m) (hget : ∀ s s', R s s' → S (get s) (get s'))
    (hset : ∀ s s', R s s' → ∀ u u', S u u' → R (set s u) (set s' u')) :
    Keeps R (Action.zoom get set m) := by
  intro s s' h
  refine Protocol.Rel.bind (hm _ _ (hget s s' h)) ?_
  rintro ⟨r, u⟩ ⟨_, u'⟩ ⟨rfl, hu⟩
  exact .done ⟨rfl, hset s s' h u u' hu⟩

theorem ofReadResult (r : Except ReadError α) :
    Keeps R (Action.ofReadResult r : Action σ α) := by
  cases r with
  | ok a => exact pure a
  | error e => exact fun _ _ h => .done ⟨rfl, h⟩

end Action.Keeps

theorem eq_none_or_some_of_rel {R : α → β → Prop} {x : Option α} {y : Option β}
    (h : Option.Rel R x y) :
    x = none ∧ y = none ∨ ∃ a b, x = some a ∧ y = some b ∧ R a b := by
  cases h with
  | none => exact .inl ⟨rfl, rfl⟩
  | some h => exact .inr ⟨_, _, rfl, rfl, h⟩

structure Runner.Rel (R : α → β → Prop) (r : Runner α) (r' : Runner β) : Prop where
  program : r.program.Rel R r'.program
  group : r.group = r'.group
  tape : r.tape = r'.tape

theorem Runner.Rel.start {R : α → β → Prop} {p : Protocol α} {q : Protocol β} (h : p.Rel R q)
    (t : Tape) : Rel R (start p t) (start q t) := by
  refine ⟨h, ?_, rfl⟩
  show p.parts = q.parts
  cases h <;> rfl

theorem Runner.Rel.next {R : α → β → Prop} {r : Runner α} {r' : Runner β} (h : r.Rel R r') :
    Option.Rel (Runner.Rel R) r.next? r'.next? := by
  obtain ⟨p, group, tape⟩ := r
  obtain ⟨p', _, _⟩ := r'
  obtain ⟨hp, rfl, rfl⟩ := h
  cases hp with
  | done h => exact .none
  | draw h => exact .some (.start (h _) _)
  | scatter settlement phase messages h =>
    simp only [next?]
    cases group.outcome? settlement with
    | none => exact .none
    | some result => exact .some (.start (h _) _)
  | gather settlement phase sources accept h =>
    simp only [next?]
    cases group.outcome? settlement with
    | none => exact .none
    | some result => exact .some (.start (h _) _)

theorem Runner.Rel.move {R : α → β → Prop} {r : Runner α} {r' : Runner β} (h : r.Rel R r')
    (me : Fin n) (q : Queues n) (m : Move) :
    Option.Rel (fun x y => Runner.Rel R x.1 y.1 ∧ x.2 = y.2) (r.move capacity me q m)
      (r'.move capacity me q m) := by
  cases m with
  | goOn =>
    rcases eq_none_or_some_of_rel h.next with ⟨hr, hr'⟩ | ⟨u, u', hr, hr', hu⟩
    · simp only [Runner.move, hr, hr']
      exact .none
    · simp only [Runner.move, hr, hr']
      exact .some ⟨hu, rfl⟩
  | settle k =>
    have hacts : r.program.phase = r'.program.phase ∧ r.program.accept = r'.program.accept := by
      have hprogram := h.program
      generalize r.program = p at hprogram
      generalize r'.program = p' at hprogram
      cases hprogram <;> exact ⟨rfl, rfl⟩
    rcases eq_none_or_some_of_rel h.next with ⟨hr, hr'⟩ | ⟨u, u', hr, hr', -⟩
    · simp only [Runner.move, hr, hr', ← h.group, ← hacts.1, ← hacts.2]
      rcases r.group[k]? with _ | ⟨part, stage⟩
      · exact .none
      · cases stage with
        | fresh =>
          simp only
          cases settlePart capacity me r.program.phase r.program.accept q part with
          | none => exact .none
          | some x => exact .some ⟨⟨h.program, rfl, h.tape⟩, rfl⟩
        | _ => exact .none
    · simp only [Runner.move, hr, hr']
      exact .none

theorem Runner.Rel.deeds {R : α → β → Prop} {r : Runner α} {r' : Runner β} (h : r.Rel R r')
    (me : Fin n) (q : Queues n) (m : Move) : r.deeds me q m = r'.deeds me q m := by
  cases m with
  | goOn => rfl
  | settle k => simp only [Runner.deeds, h.group]

namespace World

def perform (capacity : Option Nat) (w : World n α) :
    List (Fin n × Move) → Option (World n α × List (Fin n × Deed))
  | [] => some (w, [])
  | (i, m) :: rest => do
    let v ← w.move capacity i m
    let (u, ds) ← v.perform capacity rest
    return (u, ((w.runners i).deeds i w.queues m).map (i, ·) ++ ds)

theorem perform_concat {w v u : World n α} {schedule : List (Fin n × Move)}
    {ds : List (Fin n × Deed)} {i : Fin n} {m : Move}
    (h : w.perform capacity schedule = some (v, ds)) (hm : v.move capacity i m = some u) :
    w.perform capacity (schedule ++ [(i, m)]) =
      some (u, ds ++ ((v.runners i).deeds i v.queues m).map (i, ·)) := by
  induction schedule generalizing w ds with
  | nil =>
    cases h
    simp [perform, hm]
  | cons move rest ih =>
    obtain ⟨j, m'⟩ := move
    simp only [perform, Option.bind_eq_bind, Option.bind_eq_some_iff] at h
    obtain ⟨w', hw', ⟨v', ds'⟩, hv, heq⟩ := h
    cases heq
    simp [perform, hw', ih hv]

/-- What can come about is what can be scheduled. -/
theorem run_iff_perform {k : Nat} {w u : World n α} :
    Run capacity k w u ↔
      ∃ schedule ds, schedule.length = k ∧ w.perform capacity schedule = some (u, ds) := by
  constructor
  · intro h
    induction h with
    | nil w => exact ⟨[], [], rfl, rfl⟩
    | snoc _ hs ih =>
      obtain ⟨i, m, hm⟩ := hs
      obtain ⟨schedule, ds, hlen, hv⟩ := ih
      exact ⟨schedule ++ [(i, m)], _, by simp [hlen], perform_concat hv hm⟩
  · rintro ⟨schedule, ds, rfl, h⟩
    induction schedule generalizing w ds with
    | nil =>
      cases h
      exact .nil _
    | cons move rest ih =>
      obtain ⟨i, m⟩ := move
      simp only [perform, Option.bind_eq_bind, Option.bind_eq_some_iff] at h
      obtain ⟨v, hv, ⟨u', ds'⟩, hu, heq⟩ := h
      cases heq
      exact .cons ⟨i, m, hv⟩ (ih ds' hu)

structure Rel (R : α → β → Prop) (w : World n α) (w' : World n β) : Prop where
  runners : ∀ i, (w.runners i).Rel R (w'.runners i)
  queues : w.queues = w'.queues

variable {R : α → β → Prop} {w : World n α} {w' : World n β}

theorem Rel.start {p : Fin n → Protocol α} {p' : Fin n → Protocol β} (h : ∀ i, (p i).Rel R (p' i))
    (t : Fin n → Tape) (q : Queues n) : Rel R (start p t q) (start p' t q) :=
  ⟨fun i => .start (h i) (t i), rfl⟩

theorem Rel.move (h : w.Rel R w') (i : Fin n) (m : Move) :
    Option.Rel (Rel R) (w.move capacity i m) (w'.move capacity i m) := by
  have hmove : Option.Rel (fun x y => Runner.Rel R x.1 y.1 ∧ x.2 = y.2)
      ((w.runners i).move capacity i w.queues m) ((w'.runners i).move capacity i w.queues m) :=
    (h.runners i).move i w.queues m
  simp only [World.move, ← h.queues]
  rcases eq_none_or_some_of_rel hmove with ⟨hr, hr'⟩ | ⟨⟨r, q⟩, ⟨r', q'⟩, hr, hr', hrel, hq⟩
  · rw [hr, hr']
    exact .none
  · rw [hr, hr']
    refine .some ⟨fun j => ?_, hq⟩
    by_cases hji : j = i
    · subst hji
      simpa using hrel
    · simpa [hji] using h.runners j

/-- Under the same schedule the same messages are sent and heard, and what is left is alike. -/
theorem Rel.perform (h : w.Rel R w') (schedule : List (Fin n × Move)) :
    Option.Rel (fun x y => Rel R x.1 y.1 ∧ x.2 = y.2) (w.perform capacity schedule)
      (w'.perform capacity schedule) := by
  induction schedule generalizing w w' with
  | nil => exact .some ⟨h, rfl⟩
  | cons move rest ih =>
    obtain ⟨i, m⟩ := move
    have hmove : Option.Rel (Rel R) (w.move capacity i m) (w'.move capacity i m) := h.move i m
    have hdeeds := (h.runners i).deeds i w.queues m
    simp only [World.perform, ← h.queues, ← hdeeds]
    rcases eq_none_or_some_of_rel hmove with ⟨hv, hv'⟩ | ⟨v, v', hv, hv', hrel⟩
    · rw [hv, hv']
      exact .none
    · rcases eq_none_or_some_of_rel (ih hrel) with ⟨hu, hu'⟩ | ⟨u, u', hu, hu', hrel', hds⟩
      · simp only [hv, hv', Option.bind_eq_bind, Option.bind_some, hu, hu']
        exact .none
      · simp only [hv, hv', Option.bind_eq_bind, Option.bind_some, hu, hu']
        exact .some ⟨hrel', congrArg _ hds⟩

def result? (w : World n (ρ × σ)) (i : Fin n) : Option ρ :=
  match (w.runners i).program with
  | .done (r, _) => some r
  | _ => none

/-- What a run shows: every message that was sent or heard, what is still on the way, and what
the parties have come to, but not the states in which they are. -/
def shown (capacity : Option Nat) (w : World n (ρ × σ)) (schedule : List (Fin n × Move)) :
    Option (List (Fin n × Deed) × Queues n × (Fin n → Option ρ)) :=
  (w.perform capacity schedule).map fun (u, ds) => (ds, u.queues, u.result?)

theorem Rel.shown {w : World n (ρ × σ)} {w' : World n (ρ × τ)}
    (h : w.Rel (fun x y => x.1 = y.1) w') (schedule : List (Fin n × Move)) :
    w.shown capacity schedule = w'.shown capacity schedule := by
  have hperform : Option.Rel (fun x y => Rel (fun x y => x.1 = y.1) x.1 y.1 ∧ x.2 = y.2)
      (w.perform capacity schedule) (w'.perform capacity schedule) := h.perform schedule
  rcases eq_none_or_some_of_rel hperform with ⟨hu, hu'⟩ | ⟨⟨u, ds⟩, ⟨u', _⟩, hu, hu', hrel, rfl⟩
  · simp only [World.shown, hu, hu', Option.map_none]
  · have hresult : u.result? = u'.result? := funext fun i => by
      have hprogram := (hrel.runners i).program
      simp only [result?]
      generalize (u.runners i).program = p at hprogram
      generalize (u'.runners i).program = p' at hprogram
      cases hprogram with
      | done hr => exact congrArg some hr
      | _ => rfl
    have hqueues : u.queues = u'.queues := hrel.queues
    simp only [World.shown, hu, hu', Option.map_some, hresult, hqueues]

end World

end AuthShares
