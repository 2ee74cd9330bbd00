import AuthShares.Proofs.Network.Together

/-!
# Accord

Programs that are carried out together start from empty queues, leave them empty and
all come to an end. A program can be continued by another one that depends on its
value; so collectives are put together action by action. Actions are in accord if all
parties succeed with them, each from its own state.
-/

set_option autoImplicit false

namespace AuthShares

variable {n : Nat} {α β σ τ : Type} {capacity : Option Nat}

namespace Runner

def andThen (f : α → Protocol β) (r : Runner α) : Runner β :=
  match r.program with
  | .done a => start (f a) r.tape
  | p => ⟨p.bind f, r.group, r.tape⟩

def Tidy (r : Runner α) : Prop := ∀ a, r.program = .done a → r.group = []

theorem start_tidy (p : Protocol α) (t : Tape) : (start p t).Tidy := by
  intro a h
  have hp : p = .done a := h
  rw [hp]
  rfl

theorem start_andThen (p : Protocol α) (t : Tape) (f : α → Protocol β) :
    (start p t).andThen f = start (p.bind f) t := by
  cases p <;> rfl

theorem next_andThen {r r' : Runner α} (f : α → Protocol β) (h : r.next? = some r') :
    (r.andThen f).next? = some (r'.andThen f) ∧ r'.Tidy := by
  obtain ⟨program, group, tape⟩ := r
  cases program with
  | done a => cases h
  | draw next =>
    cases h
    exact ⟨congrArg some (start_andThen ..).symm, start_tidy _ _⟩
  | scatter settlement phase messages next =>
    obtain ⟨result, ho, rfl⟩ := Option.map_eq_some_iff.mp h
    refine ⟨?_, start_tidy _ _⟩
    rw [start_andThen]
    exact Option.map_eq_some_iff.mpr ⟨result, ho, rfl⟩
  | gather settlement phase sources accept next =>
    obtain ⟨result, ho, rfl⟩ := Option.map_eq_some_iff.mp h
    refine ⟨?_, start_tidy _ _⟩
    rw [start_andThen]
    exact Option.map_eq_some_iff.mpr ⟨result, ho, rfl⟩

theorem andThen_of_part {r : Runner α} (f : α → Protocol β) (ht : r.Tidy) {k : Nat}
    {x : Part × Stage} (h : r.group[k]? = some x) :
    r.andThen f = ⟨r.program.bind f, r.group, r.tape⟩ ∧
      (r.andThen f).program.phase = r.program.phase ∧
      (r.andThen f).program.accept = r.program.accept ∧
      (r.next? = none → (r.andThen f).next? = none) := by
  obtain ⟨program, group, tape⟩ := r
  cases program with
  | done a =>
    rw [ht a rfl] at h
    cases h
  | draw next => exact ⟨rfl, rfl, rfl, fun h => nomatch h⟩
  | scatter settlement phase messages next =>
    exact ⟨rfl, rfl, rfl, fun h => Option.map_eq_none_iff.mpr (Option.map_eq_none_iff.mp h)⟩
  | gather settlement phase sources accept next =>
    exact ⟨rfl, rfl, rfl, fun h => Option.map_eq_none_iff.mpr (Option.map_eq_none_iff.mp h)⟩

theorem move_andThen {me : Fin n} {q q' : Queues n} {r r' : Runner α} {m : Move}
    (f : α → Protocol β) (ht : r.Tidy) (h : r.move capacity me q m = some (r', q')) :
    (r.andThen f).move capacity me q m = some (r'.andThen f, q') ∧ r'.Tidy ∧
      (m ≠ .goOn → (r'.andThen f).group = r'.group) := by
  cases m with
  | goOn =>
    obtain ⟨hn, rfl⟩ := move_goOn_eq_some_iff.mp h
    obtain ⟨hn', ht'⟩ := next_andThen f hn
    exact ⟨move_goOn_eq_some_iff.mpr ⟨hn', rfl⟩, ht', fun h => absurd rfl h⟩
  | settle k =>
    obtain ⟨part, stage, hn, hg, hs, rfl⟩ := move_settle_eq_some_iff.mp h
    obtain ⟨he, hphase, haccept, hnone⟩ := andThen_of_part f ht hg
    have ht' : Tidy { r with group := List.set r.group k (part, stage) } := by
      intro a hd
      rw [ht a hd] at hg
      cases hg
    have hlt : k < r.group.length := (List.getElem?_eq_some_iff.mp hg).1
    have hg' : (List.set r.group k (part, stage))[k]? = some (part, stage) := by simp [hlt]
    obtain ⟨he', -⟩ := andThen_of_part f ht' hg'
    refine ⟨move_settle_eq_some_iff.mpr ⟨part, stage, ?_, ?_, ?_, ?_⟩, ht', fun _ => ?_⟩
    · exact Option.isNone_iff_eq_none.mpr (hnone (Option.isNone_iff_eq_none.mp hn))
    · rw [he]
      exact hg
    · rw [hphase, haccept]
      exact hs
    · rw [he', he]
    · rw [he']

end Runner

namespace World

def andThen (f : Fin n → α → Protocol β) (w : World n α) : World n β :=
  ⟨fun i => (w.runners i).andThen (f i), w.queues⟩

theorem start_andThen (p : Fin n → Protocol α) (t : Fin n → Tape) (q : Queues n)
    (f : Fin n → α → Protocol β) :
    (start p t q).andThen f = start (fun i => (p i).bind (f i)) t q := by
  unfold andThen start
  congr 1
  funext i
  exact Runner.start_andThen ..

theorem Advance.andThen {w v : World n α} {i : Fin n} {m : Move} (f : Fin n → α → Protocol β)
    (ht : ∀ j, (w.runners j).Tidy) (h : Advance capacity w i m v) :
    Advance capacity (w.andThen f) i m (v.andThen f) ∧ ∀ j, (v.runners j).Tidy := by
  obtain ⟨r, q, hm, rfl⟩ := move_eq_some_iff.mp h.move
  obtain ⟨hm', htr, hg⟩ := Runner.move_andThen (f i) (ht i) hm
  refine ⟨⟨move_eq_some_iff.mpr ⟨_, q, hm', ?_⟩, fun hne => ?_⟩, fun j => ?_⟩
  · unfold World.andThen
    congr 1
    funext j
    by_cases hj : j = i
    · subst hj
      simp
    · simp [hj]
  · have hc := h.clean hne
    simp only [World.andThen, Function.update_self] at hc ⊢
    rw [hg hne]
    exact hc
  · by_cases hj : j = i
    · subst hj
      simpa using htr
    · simpa [hj] using ht j

theorem Leads.andThen {k : Nat} {w v : World n α} (f : Fin n → α → Protocol β)
    (ht : ∀ j, (w.runners j).Tidy) (h : Leads capacity k w v) :
    Leads capacity k (w.andThen f) (v.andThen f) := by
  induction h with
  | nil w => exact .nil _
  | cons hm _ ih =>
    obtain ⟨hm', ht'⟩ := hm.andThen f ht
    exact .cons hm' (ih ht')

/-- The parties carry out their programs together: from empty queues all of them get to
the end, with the given values and tapes, and the queues are empty again. -/
def Together (capacity : Option Nat) (p : Fin n → Protocol α) (t : Fin n → Tape)
    (a : Fin n → α) (t' : Fin n → Tape) : Prop :=
  ∃ k, Leads capacity k (start p t .empty) (start (fun i => .done (a i)) t' .empty)

theorem Together.pure (a : Fin n → α) (t : Fin n → Tape) :
    Together capacity (fun i => .done (a i)) t a t := ⟨0, .nil _⟩

theorem Together.bind {p : Fin n → Protocol α} {f : Fin n → α → Protocol β}
    {t t' t'' : Fin n → Tape} {a : Fin n → α} {b : Fin n → β}
    (h : Together capacity p t a t')
    (h' : Together capacity (fun i => f i (a i)) t' b t'') :
    Together capacity (fun i => (p i).bind (f i)) t b t'' := by
  obtain ⟨k, hk⟩ := h
  obtain ⟨l, hl⟩ := h'
  have hk' := hk.andThen f fun j => Runner.start_tidy _ _
  rw [start_andThen, start_andThen] at hk'
  exact ⟨k + l, hk'.trans hl⟩

/-- All runs of programs that can be carried out together end alike. -/
theorem Together.endsIn {p : Fin n → Protocol α} {t t' : Fin n → Tape} {a : Fin n → α}
    (h : Together capacity p t a t') :
    EndsIn capacity (start p t .empty) (start (fun i => .done (a i)) t' .empty) := by
  obtain ⟨k, hk⟩ := h
  exact hk.endsIn (still_of_done a t' .empty)

theorem Together.eq_of_endsIn {p : Fin n → Protocol α} {t t' : Fin n → Tape} {a : Fin n → α}
    (h : Together capacity p t a t') {v : World n α}
    (hv : EndsIn capacity (start p t .empty) v) : start (fun i => .done (a i)) t' .empty = v := by
  obtain ⟨k, hk⟩ := h
  obtain ⟨bound, hbound⟩ := hv
  exact (hbound k _ hk.toRun).2 (still_of_done a t' .empty)

theorem Together.values_eq {p : Fin n → Protocol α} {t t' t'' : Fin n → Tape} {a b : Fin n → α}
    (h : Together capacity p t a t')
    (hend : EndsIn capacity (start p t .empty) (start (fun i => .done (b i)) t'' .empty)) :
    a = b := by
  have hworlds := h.eq_of_endsIn hend
  funext i
  have hprograms := congrArg (fun w => (w.runners i).program) hworlds
  exact Protocol.done.inj hprograms

end World

theorem mapM_ok {ε : Type} (xs : List α) :
    xs.mapM (fun x => (.ok x : Except ε α)) = .ok xs := by
  induction xs with
  | nil => rfl
  | cons x xs ih =>
    rw [List.mapM_cons, ih]
    rfl

theorem mapM_ok_of_forall {ε : Type} (f : α → Except ε β) (g : α → β) (xs : List α)
    (h : ∀ x ∈ xs, f x = .ok (g x)) : xs.mapM f = .ok (xs.map g) := by
  induction xs with
  | nil => rfl
  | cons x xs ih =>
    rw [List.mapM_cons, h x (by simp), ih fun y hy => h y (by simp [hy])]
    rfl

namespace Link

def after (f : α → Link β) : Except ChannelError α → Protocol (Except ChannelError β)
  | .ok a => (f a).run
  | .error e => .done (.error e)

theorem run_scatter (size : Nat) (phase : String) (messages : List (Nat × Bytes))
    (f : Unit → Link β) :
    (scatter size phase messages >>= f).run =
      .scatter (.ofSize size) phase messages (after f) := by
  show Protocol.scatter (.ofSize size) phase messages _ = _
  congr 1
  funext r
  cases r <;> rfl

theorem run_gather (size : Nat) (phase : String) (sources : List Nat)
    (decode : Bytes → Except ChannelError α) (f : List α → Link β) :
    (gather size phase sources decode >>= f).run =
      .gather (.ofSize size) phase sources (fun bs => (decode bs).map fun _ => ())
        fun r => after f (r.bind fun messages => messages.mapM decode) := by
  show Protocol.gather (.ofSize size) phase sources _ _ = _
  congr 1
  funext r
  cases r with
  | error e => rfl
  | ok messages => cases h : messages.mapM decode <;> simp [Except.bind, h, after] <;> rfl

theorem run_send (party : Nat) (phase : String) (bs : Bytes) (f : Unit → Link β) :
    (send party phase bs >>= f).run =
      .scatter .atOnce phase [(party, bs)] (after f) := run_scatter 1 phase _ f

theorem run_receive (party : Nat) (phase : String) (f : Bytes → Link β) :
    (receive party phase >>= f).run =
      .gather .atOnce phase [party] (fun _ => .ok ())
        fun r => after f (r.map fun messages => messages.headD []) := by
  rw [receive, bind_assoc]
  simp only [pure_bind]
  refine (run_gather 1 phase [party] .ok fun messages => f (messages.headD [])).trans ?_
  show Protocol.gather .atOnce phase [party] _ _ = _
  congr 1
  funext r
  cases r with
  | error e => rfl
  | ok messages =>
    rw [Except.bind, mapM_ok]
    rfl

end Link

namespace Action

def after (s : σ) (f : α → Action σ β) : Except ChannelError α → Protocol (Except Error β × σ)
  | .ok a => (f a).run.run s
  | .error e => .done (.error (.channel e), s)

theorem run_link (m : Link α) (f : α → Action σ β) (s : σ) :
    ((liftM m : Action σ α) >>= f).run.run s = m.run.bind (after s f) := by
  show Protocol.bind (Protocol.bind (Protocol.bind m.run _) _) _ = _
  rw [Protocol.bind_bind, Protocol.bind_bind]
  congr 1
  funext r
  cases r <;> rfl

theorem run_scatter (size : Nat) (phase : String) (messages : List (Nat × Bytes)) (s : σ) :
    (liftM (Link.scatter size phase messages) : Action σ Unit).run.run s =
      .scatter (.ofSize size) phase messages (after s pure) := by
  rw [← bind_pure (liftM (Link.scatter size phase messages) : Action σ Unit), run_link]
  rfl

theorem run_gatherBytes (phase : String) (sources : List Nat) (f : List Bytes → Action σ β)
    (s : σ) :
    ((liftM (Link.gatherBytes phase sources) : Action σ (List Bytes)) >>= f).run.run s =
      .gather (.ofSize sources.length) phase sources (fun _ => .ok ()) (after s f) := by
  rw [run_link]
  show Protocol.gather (.ofSize sources.length) phase sources _ _ = _
  congr 1
  funext r
  cases r with
  | error e => rfl
  | ok messages =>
    show (Protocol.done (messages.mapM fun bs => .ok bs)).bind (after s f) = _
    rw [mapM_ok]
    rfl

theorem run_receive (party : Nat) (phase : String) (f : Bytes → Action σ β) (s : σ) :
    ((liftM (Link.receive party phase) : Action σ Bytes) >>= f).run.run s =
      .gather .atOnce phase [party] (fun _ => .ok ())
        fun r => after s f (r.map fun messages => messages.headD []) := by
  rw [run_link, ← bind_pure (Link.receive party phase), Link.run_receive]
  show Protocol.gather .atOnce phase [party] _ _ = _
  congr 1
  funext r
  cases r <;> rfl

theorem run_get (s : σ) : (getThe σ : Action σ σ).run.run s = .done (.ok s, s) := rfl

theorem run_bind_done {m : Action σ α} {f : α → Action σ β} {s s' : σ} {a : α}
    (h : m.run.run s = .done (.ok a, s')) : (m >>= f).run.run s = (f a).run.run s' := by
  show Protocol.bind (m.run.run s) _ = _
  rw [h]
  rfl

end Action

theorem World.Together.zoom {get : σ → τ} {set : σ → τ → σ} {m : Fin n → Action τ α}
    {s : Fin n → σ} {u : Fin n → τ} {r : Fin n → Except Error α} {t t' : Fin n → Tape}
    (h : Together capacity (fun i => (m i).run.run (get (s i))) t (fun i => (r i, u i)) t') :
    Together capacity (fun i => (Action.zoom get set (m i)).run.run (s i)) t
      (fun i => (r i, set (s i) (u i))) t' :=
  h.bind (World.Together.pure _ t')

def Accord (capacity : Option Nat) (m : Fin n → Action σ α) (s : Fin n → σ) (t : Fin n → Tape)
    (a : Fin n → α) (s' : Fin n → σ) (t' : Fin n → Tape) : Prop :=
  World.Together capacity (fun i => (m i).run.run (s i)) t (fun i => (.ok (a i), s' i)) t'

namespace Accord

variable {m : Fin n → Action σ α} {s s' s'' : Fin n → σ} {t t' t'' : Fin n → Tape}
  {a : Fin n → α} {b : Fin n → β}

theorem pure (a : Fin n → α) (s : Fin n → σ) (t : Fin n → Tape) :
    Accord capacity (fun i => (Pure.pure (a i) : Action σ α)) s t a s t :=
  World.Together.pure _ t

theorem bind {f : Fin n → α → Action σ β} (h : Accord capacity m s t a s' t')
    (h' : Accord capacity (fun i => f i (a i)) s' t' b s'' t'') :
    Accord capacity (fun i => m i >>= f i) s t b s'' t'' :=
  World.Together.bind h h'

theorem of_done (h : ∀ i, (m i).run.run (s i) = .done (.ok (a i), s' i)) (t : Fin n → Tape) :
    Accord capacity m s t a s' t := by
  unfold Accord
  rw [show (fun i => (m i).run.run (s i)) = _ from funext h]
  exact World.Together.pure _ t

theorem bind_done {f : Fin n → α → Action σ β}
    (h : ∀ i, (m i).run.run (s i) = .done (.ok (a i), s' i))
    (h' : Accord capacity (fun i => f i (a i)) s' t b s'' t') :
    Accord capacity (fun i => m i >>= f i) s t b s'' t' := (of_done h t).bind h'

theorem link {m : Fin n → Link α}
    (h : World.Together capacity (fun i => (m i).run) t (fun i => .ok (a i)) t') (s : Fin n → σ) :
    Accord capacity (fun i => (liftM (m i) : Action σ α)) s t a s t' := by
  have hrun : ∀ i, (liftM (m i) : Action σ α).run.run (s i) =
      (m i).run.bind (Action.after (s i) Pure.pure) := by
    intro i
    rw [← Action.run_link, bind_pure]
  unfold Accord
  rw [show (fun i => (liftM (m i) : Action σ α).run.run (s i)) = _ from funext hrun]
  exact h.bind (World.Together.pure _ t')

theorem protocol {p : Fin n → Protocol α} (h : World.Together capacity p t a t')
    (s : Fin n → σ) :
    Accord capacity (fun i => (Action.ofProtocol (p i) : Action σ α)) s t a s t' :=
  World.Together.bind h (World.Together.pure _ t')

theorem interaction {m : Fin n → Interaction α}
    (h : World.Together capacity (fun i => (m i).run) t (fun i => .ok (a i)) t') (s : Fin n → σ) :
    Accord capacity (fun i => (liftM (m i) : Action σ α)) s t a s t' :=
  World.Together.bind h (World.Together.pure _ t')

theorem zoom {get : σ → τ} {set : σ → τ → σ} {m : Fin n → Action τ α} {u : Fin n → τ}
    (h : Accord capacity m (fun i => get (s i)) t a u t') :
    Accord capacity (fun i => Action.zoom get set (m i)) s t a (fun i => set (s i) (u i)) t' :=
  World.Together.zoom h

theorem thenDo {f : Fin n → α → Action σ β} {r : Fin n → Except Error β × σ}
    (h : Accord capacity m s t a s' t')
    (h' : World.Together capacity (fun i => (f i (a i)).run.run (s' i)) t' r t'') :
    World.Together capacity (fun i => (m i >>= f i).run.run (s i)) t r t'' :=
  World.Together.bind h h'

end Accord

theorem World.Together.mapValue {m : Fin n → Action σ α} {s s' : Fin n → σ} {t t' : Fin n → Tape}
    {r : Fin n → Except Error α} (g : Fin n → α → β)
    (h : Together capacity (fun i => (m i).run.run (s i)) t (fun i => (r i, s' i)) t') :
    Together capacity (fun i => (m i >>= fun a => Pure.pure (g i a)).run.run (s i)) t
      (fun i => ((r i).map (g i), s' i)) t' := by
  have hdone : (fun i => (ExceptT.bindCont (fun a => (Pure.pure (g i a) : Action σ β)) (r i)).run
      (s' i)) = fun i => .done ((r i).map (g i), s' i) := by
    funext i
    cases r i <;> rfl
  exact h.bind (hdone ▸ World.Together.pure _ t')

end AuthShares
