import AuthShares.Proofs.Network.Outcomes

/-!
# Programs that keep notes

A program can keep notes in its state on which nothing it does depends. Through a view of the
state that leaves the notes out, it is the program without them.
-/

set_option autoImplicit false

namespace AuthShares

variable {σ τ α β : Type} {view : τ → σ}

def Forgets (view : τ → σ) (p' : StateT τ Protocol α) (p : StateT σ Protocol α) : Prop :=
  ∀ s, (p'.run s).bind (fun x => .done (x.1, view x.2)) = p.run (view s)

namespace Forgets

variable {p' : StateT τ Protocol α} {p : StateT σ Protocol α}

theorem pure (a : α) :
    Forgets view (Pure.pure a : StateT τ Protocol α) (Pure.pure a : StateT σ Protocol α) :=
  fun _ => rfl

theorem bind {f' : α → StateT τ Protocol β} {f : α → StateT σ Protocol β}
    (h : Forgets view p' p) (hf : ∀ a, Forgets view (f' a) (f a)) :
    Forgets view (p' >>= f') (p >>= f) := by
  intro s
  refine (Protocol.bind_bind (p'.run s) _ _).trans ?_
  refine Eq.trans ?_ (congrArg (Protocol.bind · _) (h s))
  refine Eq.trans ?_ (Protocol.bind_bind (p'.run s) _ _).symm
  congr 1
  funext x
  exact hf x.1 x.2

theorem get_bind {g' : τ → StateT τ Protocol α} {g : σ → StateT σ Protocol α}
    (h : ∀ s, Forgets view (g' s) (g (view s))) :
    Forgets view (getThe τ >>= g') (getThe σ >>= g) := fun s => h s s

/-- What the program comes to without notes, it comes to with some notes. -/
theorem returns (h : Forgets view p' p) {s : τ} {a : α} {u : σ}
    (hr : (p.run (view s)).Returns (a, u)) :
    ∃ s', view s' = u ∧ (p'.run s).Returns (a, s') := by
  rw [← h s] at hr
  obtain ⟨⟨b, s'⟩, hb, hdone⟩ := (Protocol.returns_bind (p'.run s) _ _).mp hr
  cases hdone
  exact ⟨s', rfl, hb⟩

/-- If parties that keep notes get to the end together, they do so without them. -/
theorem together {n : Nat} {capacity : Option Nat} {p' : Fin n → StateT τ Protocol α}
    {p : Fin n → StateT σ Protocol α} (h : ∀ i, Forgets view (p' i) (p i)) {s s' : Fin n → τ}
    {a : Fin n → α} {t t' : Fin n → Tape}
    (htog : World.Together capacity (fun i => (p' i).run (s i)) t (fun i => (a i, s' i)) t') :
    World.Together capacity (fun i => (p i).run (view (s i))) t
      (fun i => (a i, view (s' i))) t' := by
  have herased := htog.bind (f := fun _ x => .done (x.1, view x.2)) (World.Together.pure _ t')
  simp only [fun i => h i (s i)] at herased
  exact herased

end Forgets

namespace Action

def Forgets (view : τ → σ) (m' : Action τ α) (m : Action σ α) : Prop :=
  AuthShares.Forgets view m'.run m.run

namespace Forgets

variable {m' : Action τ α} {m : Action σ α}

theorem pure (a : α) : Forgets view (Pure.pure a : Action τ α) (Pure.pure a) := fun _ => rfl

theorem throw (e : Error) : Forgets view (MonadExcept.throw e : Action τ α)
    (MonadExcept.throw e) := fun _ => rfl

theorem bind {f' : α → Action τ β} {f : α → Action σ β} (h : Forgets view m' m)
    (hf : ∀ a, Forgets view (f' a) (f a)) : Forgets view (m' >>= f') (m >>= f) := by
  refine AuthShares.Forgets.bind h fun r => ?_
  cases r with
  | ok a => exact hf a
  | error e => exact AuthShares.Forgets.pure (Except.error e : Except Error β)

/-- What is done about a failure before it goes on is not seen. -/
theorem tryCatch {f : Error → Action τ α} (h : Forgets view m' m)
    (hf : ∀ e, Forgets view (f e) (MonadExcept.throw e : Action σ α)) :
    Forgets view (MonadExcept.tryCatch m' f) m := by
  intro s
  refine (Protocol.bind_bind (m'.run.run s) _ _).trans ((h s).symm.trans ?_).symm
  congr 1
  funext x
  obtain ⟨r, u⟩ := x
  cases r with
  | ok a => rfl
  | error e => exact (hf e u).symm

theorem zoom {get : τ → σ} {set : τ → σ → τ} (hget : ∀ s, get s = view s)
    (hset : ∀ s u, view (set s u) = u) (m : Action σ α) :
    Forgets view (Action.zoom get set m) m := by
  intro s
  refine (Protocol.bind_bind (m.run.run (get s)) _ _).trans ?_
  rw [hget]
  refine Eq.trans ?_ (Protocol.bind_done (m.run.run (view s)))
  congr 1
  funext x
  exact congrArg (fun u => Protocol.done (x.1, u)) (hset s x.2)

theorem modify_bind {f : τ → τ} (hf : ∀ s, view (f s) = view s) {g : Unit → Action τ α}
    (h : Forgets view (g ()) m) : Forgets view (modify f >>= g) m := by
  intro s
  rw [← hf s]
  exact h (f s)

theorem bind_modify {m' : Action τ Unit} {m : Action σ Unit} (h : Forgets view m' m) {f : τ → τ}
    (hf : ∀ s, view (f s) = view s) : Forgets view (m' >>= fun _ => modify f) m := by
  rw [← bind_pure m]
  refine h.bind fun _ s => ?_
  show Protocol.done _ = Protocol.done _
  rw [hf s]

theorem read_bind {g : τ → Action τ α} (h : ∀ s, Forgets view (g s) m) :
    Forgets view (getThe τ >>= g) m := fun s => h s s

theorem get_bind {g' : τ → Action τ α} {g : σ → Action σ α}
    (h : ∀ s, Forgets view (g' s) (g (view s))) :
    Forgets view (getThe τ >>= g') (getThe σ >>= g) := fun s => h s s

end Forgets

end Action

end AuthShares
