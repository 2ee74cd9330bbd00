import AuthShares.Proofs.Network.Trails
import Mathlib.Data.Fintype.Basic
import Mathlib.Logic.Relation

/-!
# Among hostile parties

Some parties are honest and carry out their programs; the others are bound by nothing. At
any time they may change the messages on the way to them or from them as they like, and
any part of an action of an honest party may fail, be it that it took too long. Only the
honest parties and what is on the way between them is out of reach. So an honest party has
heard from another one the first of the messages that this one sent to it, and no others.
-/

set_option autoImplicit false

namespace AuthShares

variable {n : Nat} {α : Type} {capacity : Option Nat}

structure Scene (n : Nat) (α : Type) extends World n α where
  logs : Fin n → List Deed

def Part.deeds (me : Fin n) (q : Queues n) : Part → List Deed
  | .outgoing target bs => if target < n ∧ target ≠ me then [.sent target bs] else []
  | .incoming source =>
    if h : source < n then
      if source = me then [] else (q ⟨source, h⟩ me).head?.toList.map (.heard source)
    else
      []

def Runner.deeds (me : Fin n) (q : Queues n) (r : Runner α) : Move → List Deed
  | .goOn => []
  | .settle place =>
    match r.group[place]? with
    | some (part, _) => part.deeds me q
    | none => []

namespace Scene

/-- What can happen: an honest party moves, a part of its action fails, or anything changes
but the honest parties and what is on the way between them. -/
inductive Step (capacity : Option Nat) (honest : Finset (Fin n)) : Scene n α → Scene n α → Prop
  | act {s : Scene n α} {i : Fin n} {m : Move} {w : World n α} (hi : i ∈ honest)
      (h : s.toWorld.move capacity i m = some w) :
      Step capacity honest s
        ⟨w, Function.update s.logs i (s.logs i ++ (s.runners i).deeds i s.queues m)⟩
  | fail {s : Scene n α} {i : Fin n} {k : Nat} {part : Part} (e : ChannelError) (hi : i ∈ honest)
      (h : (s.runners i).group[k]? = some (part, .fresh)) :
      Step capacity honest s
        { s with
          runners := Function.update s.runners i
            { s.runners i with group := (s.runners i).group.set k (part, .failed e) } }
  | meddle {s s' : Scene n α}
      (hs : ∀ i ∈ honest, s'.runners i = s.runners i ∧ s'.logs i = s.logs i)
      (hq : ∀ a ∈ honest, ∀ b ∈ honest, s'.queues a b = s.queues a b) :
      Step capacity honest s s'

/-- The honest parties are at the beginning of their programs, and nothing is on the way
between them. -/
structure Begins (honest : Finset (Fin n)) (p : Fin n → Protocol α) (t : Fin n → Tape)
    (s : Scene n α) : Prop where
  runners : ∀ i ∈ honest, s.runners i = .start (p i) (t i)
  queues : ∀ a ∈ honest, ∀ b ∈ honest, s.queues a b = []
  logs : ∀ i ∈ honest, s.logs i = []

def Reached (capacity : Option Nat) (honest : Finset (Fin n)) (p : Fin n → Protocol α)
    (t : Fin n → Tape) (s : Scene n α) : Prop :=
  ∃ s₀ : Scene n α, s₀.Begins honest p t ∧ Relation.ReflTransGen (Step capacity honest) s₀ s

/-- A party has come to the end of a program with which its own begins, with a value. -/
def Passed {β : Type} (p : Fin n → Protocol α) (t : Fin n → Tape) (s : Scene n α) (i : Fin n)
    (m : Protocol β) (b : β) : Prop :=
  ∃ f l l' u, p i = m.bind f ∧ s.logs i = l ++ l' ∧
    Trail (.start m (t i)) l (.start (.done b) u) ∧ Trail (.start (f b) u) l' (s.runners i)

end Scene

inductive Delivers (me : Fin n) (q : Queues n) : List Deed → Queues n → Prop
  | nothing : Delivers me q [] q
  | sent (target : Fin n) (bs : Bytes) : Delivers me q [.sent target bs] (q.push me target bs)
  | heard (source : Fin n) (bs : Bytes) (rest : List Bytes) (hq : q source me = bs :: rest) :
      Delivers me q [.heard source bs] (q.pop source me)

theorem Settled.deeds {me : Fin n} {phase : String} {accept : Bytes → Except ChannelError Unit}
    {q q' : Queues n} {part : Part} {stage : Stage} {g : Group} {k : Nat}
    (h : Settled capacity me phase accept q part stage q') (hk : g[k]? = some (part, .fresh)) :
    Delivers me q (part.deeds me q) q' ∧
      g.Turn accept (part.deeds me q) (List.set g k (part, stage)) := by
  cases h with
  | sent target bs hne hp =>
    have hd : (Part.outgoing target bs).deeds me q = [.sent target bs] :=
      if_pos ⟨target.isLt, Fin.val_ne_of_ne hne⟩
    rw [hd]
    exact ⟨.sent target bs, .settled hk (.sent target bs)⟩
  | heard source bs rest hne hq =>
    have hd : (Part.incoming source).deeds me q = [.heard source bs] := by
      rw [Part.deeds, dif_pos source.isLt, if_neg (Fin.val_ne_of_ne hne), hq]
      rfl
    rw [hd]
    exact ⟨.heard source bs rest hq, .settled hk (.heard source bs)⟩
  | unsendable target bs hno =>
    rw [Part.deeds, if_neg hno]
    exact ⟨.nothing, .failed _ hk⟩
  | unheard source hno =>
    have hd : (Part.incoming source).deeds me q = [] := by
      rw [Part.deeds]
      split_ifs with hlt hme
      · rfl
      · exact absurd ⟨hlt, hme⟩ hno
      · rfl
    rw [hd]
    exact ⟨.nothing, .failed _ hk⟩

theorem Runner.move_deeds {me : Fin n} {q q' : Queues n} {r r' : Runner α} {m : Move}
    (h : r.move capacity me q m = some (r', q')) :
    Delivers me q (r.deeds me q m) q' ∧ Trail r (r.deeds me q m) r' := by
  cases m with
  | goOn =>
    obtain ⟨hnext, rfl⟩ := move_goOn_eq_some_iff.mp h
    exact ⟨.nothing, .goOn hnext (.nil _)⟩
  | settle k =>
    obtain ⟨part, stage, -, hk, hs, rfl⟩ := move_settle_eq_some_iff.mp h
    obtain ⟨hd, ht⟩ := (settlePart_eq_some_iff.mp hs).deeds hk
    have heq : r.deeds me q (.settle k) = part.deeds me q := by simp only [deeds, hk]
    rw [heq]
    refine ⟨hd, ?_⟩
    rw [← List.append_nil (part.deeds me q)]
    exact .turn ht (.nil _)

theorem Delivers.queue_of_ne {i a b : Fin n} {q q' : Queues n} {ds : List Deed}
    (h : Delivers i q ds q') (ha : a ≠ i) (hb : b ≠ i) : q' a b = q a b := by
  cases h with
  | nothing => rfl
  | sent target bs => exact q.push_of_ne fun h => ha h.1
  | heard source bs rest hq => exact q.pop_of_ne fun h => hb h.2

/-- The messages sent from one party to another are those heard and those on the way. -/
theorem Delivers.keeps {i a b : Fin n} {q q' : Queues n} {ds : List Deed}
    (h : Delivers i q ds q') {logs : Fin n → List Deed}
    (hab : sentTo b (logs a) = heardFrom a (logs b) ++ q a b) :
    sentTo b (Function.update logs i (logs i ++ ds) a) =
      heardFrom a (Function.update logs i (logs i ++ ds) b) ++ q' a b := by
  have hsent : sentTo b (Function.update logs i (logs i ++ ds) a) =
      sentTo b (logs a) ++ if a = i then sentTo b ds else [] := by
    by_cases ha : a = i
    · subst ha
      simp
    · simp [ha]
  have hheard : heardFrom a (Function.update logs i (logs i ++ ds) b) =
      heardFrom a (logs b) ++ if b = i then heardFrom a ds else [] := by
    by_cases hb : b = i
    · subst hb
      simp
    · simp [hb]
  rw [hsent, hheard, hab]
  -- A deed counts only if it is about the messages from `a` to `b`; otherwise neither side changes.
  cases h with
  | nothing => simp
  | sent target bs =>
    by_cases hpair : a = i ∧ b = target
    · simp [Queues.push, hpair]
    · have hmiss : (if a = i then sentTo b [Deed.sent target bs] else []) = [] := by
        split
        · rename_i ha
          have hb : (target : Nat) ≠ b := fun h => hpair ⟨ha, (Fin.ext h).symm⟩
          simp [hb]
        · rfl
      rw [hmiss, Queues.push_of_ne q hpair]
      simp
  | heard source bs rest hq =>
    by_cases hpair : a = source ∧ b = i
    · obtain ⟨rfl, rfl⟩ := hpair
      simp [Queues.pop, hq]
    · have hmiss : (if b = i then heardFrom a [Deed.heard source bs] else []) = [] := by
        split
        · rename_i hb
          have ha : (source : Nat) ≠ a := fun h => hpair ⟨(Fin.ext h).symm, hb⟩
          simp [ha]
        · rfl
      rw [hmiss, Queues.pop_of_ne q hpair]
      simp

namespace Scene

variable {honest : Finset (Fin n)} {p : Fin n → Protocol α} {t : Fin n → Tape} {s s' : Scene n α}

structure Sound (honest : Finset (Fin n)) (p : Fin n → Protocol α) (t : Fin n → Tape)
    (s : Scene n α) : Prop where
  trail : ∀ i ∈ honest, Trail (.start (p i) (t i)) (s.logs i) (s.runners i)
  keeps : ∀ a ∈ honest, ∀ b ∈ honest,
    sentTo b (s.logs a) = heardFrom a (s.logs b) ++ s.queues a b

theorem Begins.sound (h : s.Begins honest p t) : s.Sound honest p t where
  trail i hi := by
    rw [h.logs i hi, h.runners i hi]
    exact .nil _
  keeps a ha b hb := by
    rw [h.logs a ha, h.logs b hb, h.queues a ha b hb]
    rfl

theorem Step.sound (hs : Step capacity honest s s') (h : s.Sound honest p t) :
    s'.Sound honest p t := by
  cases hs with
  | @act i m w hi hm =>
    obtain ⟨r, q, hr, rfl⟩ := World.move_eq_some_iff.mp hm
    obtain ⟨hd, ht⟩ := Runner.move_deeds hr
    refine ⟨fun j hj => ?_, fun a ha b hb => hd.keeps (h.keeps a ha b hb)⟩
    by_cases hji : j = i
    · subst hji
      simpa using (h.trail j hj).trans ht
    · simpa [hji] using h.trail j hj
  | @fail i k part e hi hk =>
    refine ⟨fun j hj => ?_, h.keeps⟩
    by_cases hji : j = i
    · subst hji
      simpa using (h.trail j hj).trans (.turn (.failed e hk) (.nil _))
    · simpa [hji] using h.trail j hj
  | meddle hs hq =>
    refine ⟨fun i hi => ?_, fun a ha b hb => ?_⟩
    · rw [(hs i hi).1, (hs i hi).2]
      exact h.trail i hi
    · rw [(hs a ha).2, (hs b hb).2, hq a ha b hb]
      exact h.keeps a ha b hb

theorem Reached.sound (h : s.Reached capacity honest p t) : s.Sound honest p t := by
  obtain ⟨s₀, h₀, hs⟩ := h
  induction hs with
  | refl => exact h₀.sound
  | tail _ hstep ih => exact hstep.sound ih

/-- A party whose program has ended has passed the whole of it. -/
theorem Sound.passed (h : s.Sound honest p t) {i : Fin n} (hi : i ∈ honest) {a : α}
    (hr : (s.runners i).program = .done a) : s.Passed p t i (p i) a := by
  have htrail := h.trail i hi
  obtain ⟨u, hu⟩ := htrail.ended hr
  rw [hu] at htrail
  exact ⟨.done, s.logs i, [], u, (Protocol.bind_done _).symm, (List.append_nil _).symm, htrail,
    hu ▸ .nil _⟩

theorem Step.mono {honest' : Finset (Fin n)} (hsub : honest' ⊆ honest)
    (h : Step capacity honest s s') : Step capacity honest' s s' := by
  cases h with
  | @act i m w hi hm =>
    by_cases hi' : i ∈ honest'
    · exact .act hi' hm
    · obtain ⟨r, q, hr, rfl⟩ := World.move_eq_some_iff.mp hm
      refine .meddle (fun j hj => ?_) fun a ha b hb => ?_
      · have hji : j ≠ i := fun h => hi' (h ▸ hj)
        simp [hji]
      · have hai : a ≠ i := fun h => hi' (h ▸ ha)
        have hbi : b ≠ i := fun h => hi' (h ▸ hb)
        exact (Runner.move_deeds hr).1.queue_of_ne hai hbi
  | @fail i k part e hi hk =>
    by_cases hi' : i ∈ honest'
    · exact .fail e hi' hk
    · refine .meddle (fun j hj => ?_) fun a ha b hb => rfl
      have hji : j ≠ i := fun h => hi' (h ▸ hj)
      simp [hji]
  | meddle hs hq =>
    exact .meddle (fun i hi => hs i (hsub hi)) fun a ha b hb => hq a (hsub ha) b (hsub hb)

/-- A party that keeps to its program could as well be one that does what it likes. -/
theorem Reached.mono {honest' : Finset (Fin n)} (hsub : honest' ⊆ honest)
    (h : s.Reached capacity honest p t) : s.Reached capacity honest' p t := by
  obtain ⟨s₀, h₀, hs⟩ := h
  have hbegins : s₀.Begins honest' p t :=
    ⟨fun i hi => h₀.runners i (hsub hi), fun a ha b hb => h₀.queues a (hsub ha) b (hsub hb),
      fun i hi => h₀.logs i (hsub hi)⟩
  exact ⟨s₀, hbegins, Relation.ReflTransGen.mono (fun _ _ h => Step.mono hsub h) _ _ hs⟩

theorem reached_of_run {k : Nat} {w : World n α}
    (h : World.Run capacity k (.start p t .empty) w) :
    ∃ logs, Reached capacity Finset.univ p t ⟨w, logs⟩ := by
  generalize hw₀ : World.start p t .empty = w₀ at h
  induction h with
  | nil w =>
    subst hw₀
    exact ⟨fun _ => [], _, ⟨fun _ _ => rfl, fun _ _ _ _ => rfl, fun _ _ => rfl⟩, .refl⟩
  | snoc _ hs ih =>
    obtain ⟨i, m, hm⟩ := hs
    obtain ⟨logs, s₀, h₀, hrun⟩ := ih hw₀
    exact ⟨_, s₀, h₀, hrun.tail (.act (Finset.mem_univ i) hm)⟩

end Scene

theorem World.Together.reached {p : Fin n → Protocol α} {t t' : Fin n → Tape} {a : Fin n → α}
    (h : World.Together capacity p t a t') :
    ∃ s : Scene n α, s.Reached capacity Finset.univ p t ∧
      ∀ i, (s.runners i).program = .done (a i) := by
  obtain ⟨k, hk⟩ := h
  obtain ⟨logs, hlogs⟩ := Scene.reached_of_run hk.toRun
  exact ⟨_, hlogs, fun _ => rfl⟩

end AuthShares
