import AuthShares.Proofs.Network.Accord

/-!
# What a program can end with

A program returns a value if it can end with it, whatever the network reports and whatever
it draws. Nothing is assumed of other parties, so this covers every run, be the others
honest or not. What programs return when they are carried out together is one case.
-/

set_option autoImplicit false

namespace AuthShares

variable {n : Nat} {α β σ τ : Type} {capacity : Option Nat}

namespace Protocol

inductive Returns : Protocol α → α → Prop where
  | done (a : α) : Returns (.done a) a
  | draw {next : Bytes32 → Protocol α} {a : α} (r : Bytes32) (h : Returns (next r) a) :
      Returns (.draw next) a
  | scatter {settlement : Settlement} {phase : String} {messages : List (Nat × Bytes)}
      {next : Except ChannelError Unit → Protocol α} {a : α} (r : Except ChannelError Unit)
      (h : Returns (next r) a) : Returns (.scatter settlement phase messages next) a
  | gather {settlement : Settlement} {phase : String} {sources : List Nat}
      {accept : Bytes → Except ChannelError Unit}
      {next : Except ChannelError (List Bytes) → Protocol α} {a : α}
      (r : Except ChannelError (List Bytes)) (h : Returns (next r) a) :
      Returns (.gather settlement phase sources accept next) a

theorem returns_done {a b : α} : Returns (.done a) b ↔ a = b :=
  ⟨fun h => by cases h; rfl, fun h => h ▸ .done a⟩

theorem returns_bind (p : Protocol α) (f : α → Protocol β) (b : β) :
    (p.bind f).Returns b ↔ ∃ a, p.Returns a ∧ (f a).Returns b := by
  constructor
  · intro h
    induction p with
    | done a => exact ⟨a, .done a, h⟩
    | draw next ih =>
      cases h with
      | draw r h =>
        obtain ⟨a, ha, hb⟩ := ih r h
        exact ⟨a, .draw r ha, hb⟩
    | scatter settlement phase messages next ih =>
      cases h with
      | scatter r h =>
        obtain ⟨a, ha, hb⟩ := ih r h
        exact ⟨a, .scatter r ha, hb⟩
    | gather settlement phase sources accept next ih =>
      cases h with
      | gather r h =>
        obtain ⟨a, ha, hb⟩ := ih r h
        exact ⟨a, .gather r ha, hb⟩
  · rintro ⟨a, ha, hb⟩
    induction ha with
    | done a => exact hb
    | draw r _ ih => exact .draw r (ih hb)
    | scatter r _ ih => exact .scatter r (ih hb)
    | gather r _ ih => exact .gather r (ih hb)

end Protocol

theorem Runner.next_returns {r r' : Runner α} (h : r.next? = some r') {a : α}
    (ha : r'.program.Returns a) : r.program.Returns a := by
  obtain ⟨program, group, tape⟩ := r
  cases program with
  | done a => cases h
  | draw next =>
    cases h
    exact .draw _ ha
  | scatter settlement phase messages next =>
    obtain ⟨result, -, rfl⟩ := Option.map_eq_some_iff.mp h
    exact .scatter _ ha
  | gather settlement phase sources accept next =>
    obtain ⟨result, -, rfl⟩ := Option.map_eq_some_iff.mp h
    exact .gather _ ha

namespace World

theorem Advance.returns {w v : World n α} {i : Fin n} {m : Move} (h : Advance capacity w i m v)
    {j : Fin n} {a : α} (ha : (v.runners j).program.Returns a) :
    (w.runners j).program.Returns a := by
  obtain ⟨r, q, hm, rfl⟩ := move_eq_some_iff.mp h.move
  replace ha : (Function.update w.runners i r j).program.Returns a := ha
  by_cases hj : j = i
  · subst hj
    rw [Function.update_self] at ha
    cases m with
    | goOn => exact Runner.next_returns (Runner.move_goOn_eq_some_iff.mp hm).1 ha
    | settle k =>
      obtain ⟨part, stage, -, -, -, rfl⟩ := Runner.move_settle_eq_some_iff.mp hm
      exact ha
  · rwa [Function.update_of_ne hj] at ha

theorem Together.returns {p : Fin n → Protocol α} {t t' : Fin n → Tape} {a : Fin n → α}
    (h : Together capacity p t a t') (i : Fin n) : (p i).Returns (a i) := by
  obtain ⟨k, hk⟩ := h
  have hleads : ∀ {k : Nat} {w v : World n α}, Leads capacity k w v → ∀ {a : α},
      (v.runners i).program.Returns a → (w.runners i).program.Returns a := by
    intro k w v hl
    induction hl with
    | nil w => exact fun h => h
    | cons hm _ ih => exact fun h => hm.returns (ih h)
  exact hleads hk (.done _)

end World

namespace Action

def Yields (m : Action σ α) (s : σ) (a : α) (s' : σ) : Prop :=
  (m.run.run s).Returns (.ok a, s')

variable {m : Action σ α} {f : α → Action σ β} {s s' : σ}

theorem yields_pure {a b : α} : (pure a : Action σ α).Yields s b s' ↔ a = b ∧ s = s' := by
  refine Protocol.returns_done.trans ?_
  simp

theorem yields_bind {b : β} : (m >>= f).Yields s b s' ↔
    ∃ a u, m.Yields s a u ∧ (f a).Yields u b s' := by
  refine (Protocol.returns_bind (m.run.run s) _ _).trans ?_
  constructor
  · rintro ⟨⟨r, u⟩, hm, hf⟩
    cases r with
    | ok a => exact ⟨a, u, hm, hf⟩
    | error e => cases hf
  · rintro ⟨a, u, hm, hf⟩
    exact ⟨(.ok a, u), hm, hf⟩

theorem yields_get {a : σ} : (getThe σ : Action σ σ).Yields s a s' ↔ s = a ∧ s = s' := by
  refine Protocol.returns_done.trans ?_
  simp

theorem yields_modify {g : σ → σ} {a : Unit} :
    (modify g : Action σ Unit).Yields s a s' ↔ g s = s' := by
  refine Protocol.returns_done.trans ?_
  simp

theorem yields_interaction {m : Interaction α} {a : α}
    (h : (liftM m : Action σ α).Yields s a s') : s' = s := by
  obtain ⟨r, -, hr⟩ := (Protocol.returns_bind m.run _ _).mp h
  cases hr
  rfl

def Ends (m : Action σ α) (s : σ) (r : Except Error α) (s' : σ) : Prop :=
  (m.run.run s).Returns (r, s')

theorem ends_zoom {get : σ → τ} {set : σ → τ → σ} {m : Action τ α} {r : Except Error α}
    (h : (zoom get set m).Ends s r s') : ∃ u, m.Ends (get s) r u ∧ s' = set s u := by
  obtain ⟨⟨r', u⟩, hm, hr⟩ := (Protocol.returns_bind (m.run.run (get s)) _ _).mp h
  cases hr
  exact ⟨u, hm, rfl⟩

theorem yields_zoom {get : σ → τ} {set : σ → τ → σ} {m : Action τ α} {a : α}
    (h : (zoom get set m).Yields s a s') : ∃ u, m.Yields (get s) a u ∧ s' = set s u :=
  ends_zoom h

theorem ends_bind {r : Except Error β} : (m >>= f).Ends s r s' ↔
    (∃ a u, m.Yields s a u ∧ (f a).Ends u r s') ∨ ∃ e, m.Ends s (.error e) s' ∧ r = .error e := by
  refine (Protocol.returns_bind (m.run.run s) _ _).trans ?_
  constructor
  · rintro ⟨⟨r', u⟩, hm, hf⟩
    cases r' with
    | ok a => exact .inl ⟨a, u, hm, hf⟩
    | error e =>
      cases hf
      exact .inr ⟨e, hm, rfl⟩
  · rintro (⟨a, u, hm, hf⟩ | ⟨e, hm, rfl⟩)
    · exact ⟨(.ok a, u), hm, hf⟩
    · exact ⟨(.error e, s'), hm, .done _⟩

theorem ends_get_bind {f : σ → Action σ β} {r : Except Error β} :
    (getThe σ >>= f).Ends s r s' ↔ (f s).Ends s r s' := Iff.rfl

theorem ends_set_bind {u : σ} {f : PUnit → Action σ β} {r : Except Error β} :
    (set u >>= f).Ends s r s' ↔ (f ()).Ends u r s' := Iff.rfl

theorem ends_modify_bind {g : σ → σ} {f : Unit → Action σ β} {r : Except Error β} :
    (modify g >>= f).Ends s r s' ↔ (f ()).Ends (g s) r s' := Iff.rfl

theorem ends_bind_pure {g : α → β} {r : Except Error β} :
    (m >>= fun a => pure (g a)).Ends s r s' ↔ ∃ r', m.Ends s r' s' ∧ r = r'.map g := by
  refine ends_bind.trans ⟨?_, ?_⟩
  · rintro (⟨a, u, hm, hr⟩ | ⟨e, hm, rfl⟩)
    · cases hr
      exact ⟨.ok a, hm, rfl⟩
    · exact ⟨.error e, hm, rfl⟩
  · rintro ⟨r', hm, rfl⟩
    cases r' with
    | ok a => exact .inl ⟨a, s', hm, .done _⟩
    | error e => exact .inr ⟨e, hm, rfl⟩

/-- If something is checked after an action when it is due, either the action has failed or the
check. -/
theorem ends_checked {m check : Action σ Unit} {g : σ → σ} {due : σ → Prop} [DecidablePred due]
    {e : Error} (h : (do m; modify g; let u ← getThe σ; if due u then check else return ()
      : Action σ Unit).Ends s (.error e) s') :
    m.Ends s (.error e) s' ∨
      ∃ u, m.Yields s () u ∧ due (g u) ∧ check.Ends (g u) (.error e) s' := by
  obtain ⟨_, u, hm, hrest⟩ | ⟨e, hm, he⟩ := ends_bind.mp h
  · replace hrest := ends_get_bind.mp (ends_modify_bind.mp hrest)
    by_cases hdue : due (g u)
    · rw [if_pos hdue] at hrest
      exact .inr ⟨u, hm, hdue, hrest⟩
    · rw [if_neg hdue] at hrest
      cases hrest
  · cases he
    exact .inl hm

theorem ends_interaction {m : Interaction α} {r : Except Error α}
    (h : (liftM m : Action σ α).Ends s r s') : s' = s := by
  obtain ⟨_, -, hr⟩ := (Protocol.returns_bind m.run _ _).mp h
  cases hr
  rfl

end Action

end AuthShares
