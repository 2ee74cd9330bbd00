import AuthShares.Proofs.Opening.Lockstep
import AuthShares.Proofs.Opening.Machines

/-!
# How many values wait

How many values wait for a check depends on the commands, but not on the elements in them, as long
as all commands succeed. So players that carry out the same commands have the same number waiting,
and make their checks at the same commands. Whatever commands come to, never do so many values wait
after one that a check is due, unless it is due even if nothing waits.
-/

set_option autoImplicit false

namespace AuthShares

inductive Kind where
  | setTopology (field : Config.Field) (n : Nat)
  | setMasks
  | start
  | prepare (len : Option Nat)
  | exchange
  | finish
  | openAll (count : Nat) (len : Option Nat)
  | addToCheck
  | check
  | checkIfDue
  deriving DecidableEq

namespace Kind

def collect : Kind → Opener Unit → Opener Unit
  | setTopology field n, u => u.setTopology field n
  | start, u => u.start
  | prepare len, u => u.prepare ⟨(), ()⟩ len
  | exchange, u => u.record
  | openAll count len, u => ((·.prepare ⟨(), ()⟩ len)^[count] u.start).record
  | addToCheck, u => u.addWaiting () ()
  | setMasks, u => u
  | finish, u => u
  | check, u => u
  | checkIfDue, u => u

def occasion : Kind → Occasion
  | exchange => .whenDue
  | openAll _ _ => .whenDue
  | addToCheck => .whenDue
  | checkIfDue => .whenDue
  | check => .always
  | _ => .never

def close : Kind → Opener Unit → Opener Unit
  | finish, u => u.finish.2
  | openAll _ _, u => u.finish.2
  | _, u => u

def Calls (k : Kind) (u : Opener Unit) : Prop :=
  k.occasion.Calls (k.collect u).checkAfter (k.collect u).waiting

instance (k : Kind) (u : Opener Unit) : Decidable (k.Calls u) :=
  inferInstanceAs (Decidable (Occasion.Calls ..))

def after (k : Kind) (u : Opener Unit) : Opener Unit :=
  k.close (if k.Calls u then (k.collect u).clearWaiting else k.collect u)

end Kind

namespace Opener

variable {T : Type} {o : Opener T}

theorem clear_prepare (o : Opener T) (share : Share T) (len : Option Nat) (phase : Phase) :
    (o.prepare share len).clear phase = o.clear phase := by
  by_cases h : o.phase = .accumulating
  · rw [prepare_eq_append h]
    rfl
  · rw [prepare_eq_single h]
    rfl

theorem shape_prepareAll (len : Option Nat) (o : Opener T) (shares : List (Share T)) :
    (shares.foldl (fun o share => o.prepare share len) o).shape =
      (·.prepare ⟨(), ()⟩ len)^[shares.length] o.shape := by
  induction shares generalizing o with
  | nil => rfl
  | cons share rest ih =>
    rw [List.foldl_cons, ih, shape_prepare]
    rfl

/-- Not so many values wait that a check is due. If one is always due, none wait. -/
def Bounded (o : Opener T) : Prop := o.waiting < max 1 o.checkAfter

theorem Bounded.congr {o' : Opener T} (h : o.Bounded) (hwaiting : o'.waiting = o.waiting)
    (hcheckAfter : o'.checkAfter = o.checkAfter) : o'.Bounded := by
  rwa [Bounded, hwaiting, hcheckAfter]

theorem Bounded.clearWaiting (o : Opener T) : o.clearWaiting.Bounded :=
  Nat.lt_of_lt_of_le Nat.zero_lt_one (le_max_left 1 _)

theorem bounded_of_lt (h : o.waiting < o.checkAfter) : o.Bounded :=
  h.trans_le (le_max_right 1 _)

end Opener

namespace Kind

variable {u : Opener Unit}

theorem clear_prepareAll (u : Opener Unit) (count : Nat) (len : Option Nat) (phase : Phase) :
    ((·.prepare ⟨(), ()⟩ len)^[count] u : Opener Unit).clear phase = u.clear phase := by
  induction count generalizing u with
  | zero => rfl
  | succ count ih => exact (ih _).trans (u.clear_prepare _ len phase)

theorem checkAfter_collect (k : Kind) (u : Opener Unit) :
    (k.collect u).checkAfter = u.checkAfter := by
  cases k with
  | prepare len =>
    have hclear := congrArg Opener.checkAfter (u.clear_prepare ⟨(), ()⟩ len .idle)
    exact hclear
  | openAll count len =>
    have hclear := congrArg Opener.checkAfter (clear_prepareAll u.start count len .idle)
    exact hclear
  | _ => rfl

theorem waiting_close (k : Kind) (u : Opener Unit) :
    (k.close u).waiting = u.waiting ∧ (k.close u).checkAfter = u.checkAfter := by
  cases k <;> exact ⟨rfl, rfl⟩

theorem bounded_collect {k : Kind} (h : u.Bounded) (hcalls : ¬ k.Calls u) :
    (k.collect u).Bounded := by
  cases k with
  | prepare len =>
    have hwaiting := congrArg Opener.waiting (u.clear_prepare ⟨(), ()⟩ len .idle)
    exact h.congr hwaiting (checkAfter_collect (.prepare len) u)
  | exchange => exact Opener.bounded_of_lt (Nat.lt_of_not_le hcalls)
  | openAll count len => exact Opener.bounded_of_lt (Nat.lt_of_not_le hcalls)
  | addToCheck => exact Opener.bounded_of_lt (Nat.lt_of_not_le hcalls)
  | check => exact absurd trivial hcalls
  | _ => exact h

theorem bounded_after {k : Kind} (h : u.Bounded) : (k.after u).Bounded := by
  unfold after
  refine Opener.Bounded.congr ?_ (waiting_close k _).1 (waiting_close k _).2
  split
  · exact .clearWaiting _
  · next hcalls => exact bounded_collect h hcalls

end Kind

/-- As long as all commands of both players have succeeded, one more has a check made by both or by
neither, unless it fails before it gets there. If it succeeds too, the same number waits at both. -/
def Remark.Concur {ρ : Type} (xs ys : List (Remark ρ)) : Prop :=
  ∀ (k : Nat) (x y : Remark ρ), xs[k]? = some x → ys[k]? = some y →
    (∀ z ∈ xs.take k, z.Succeeds) → (∀ z ∈ ys.take k, z.Succeeds) →
      (x.course ≠ .broken → y.course ≠ .broken → x.course = y.course) ∧
        (x.Succeeds → y.Succeeds → x.waiting = y.waiting)

namespace Machine

variable {σ κ ρ : Type} {M N : Machine σ κ ρ} {shape : σ → Opener Unit} {kind : κ → Kind}
  {c : κ} {cs ds : List κ} {s s' t t' : σ} {x : Remark ρ} {xs ys : List (Remark ρ)}

def StaysBelow (M : Machine σ κ ρ) (limit : Nat) (s : σ) : Prop :=
  ∀ cs xs s', ((M.noteAll cs).run s).Returns (xs, s') →
    xs.length = cs.length ∧ ∀ x ∈ xs, x.waiting < limit

def Concurs (M N : Machine σ κ ρ) (kind : κ → Kind) (s t : σ) : Prop :=
  ∀ cs ds xs ys s' t', cs.map kind = ds.map kind →
    ((M.noteAll cs).run s).Returns (xs, s') → ((N.noteAll ds).run t).Returns (ys, t') →
      Remark.Concur xs ys

structure Counted (M : Machine σ κ ρ) (shape : σ → Opener Unit) (kind : κ → Kind) : Prop where
  waiting (s : σ) : M.waiting s = (shape s).waiting
  checkAfter (s : σ) : M.checkAfter s = (shape s).checkAfter
  occasion (c : κ) : M.occasion c = (kind c).occasion
  collects {c : κ} {s s' : σ} {a : Unit} (h : (M.collect c).Yields s a s') :
    shape s' = (kind c).collect (shape s)
  breaks {c : κ} {s s' : σ} {e : Error} (h : (M.collect c).Ends s (.error e) s') :
    shape s' = (shape s).clear .idle
  checks {s s' : σ} {r : Except Error Unit} (h : M.check.Ends s r s') :
    shape s' = (shape s).clearWaiting
  handsOut (c : κ) (s : σ) : shape (M.handOut c s).2 = (kind c).close (shape s)

def Leads (k : Kind) (u : Opener Unit) (x : Remark ρ) (u' : Opener Unit) : Prop :=
  match x.course with
  | .broken => ¬ x.Succeeds ∧ u' = u.clear .idle
  | .unchecked => ¬ k.Calls u ∧ u' = k.after u
  | .checked => k.Calls u ∧
    (u' = k.after u ∨ ¬ x.Succeeds ∧ u' = (k.collect u).clearWaiting)

theorem Leads.after {k : Kind} {u u' : Opener Unit} (h : Leads k u x u') (hx : x.Succeeds) :
    u' = k.after u := by
  obtain ⟨r, course, w⟩ := x
  cases course with
  | broken => exact absurd hx h.1
  | unchecked => exact h.2
  | checked => exact h.2.resolve_right fun h => h.1 hx

theorem Leads.bounded {k : Kind} {u u' : Opener Unit} (h : Leads k u x u') (hu : u.Bounded) :
    u'.Bounded ∧ u'.checkAfter = u.checkAfter := by
  have hafter : (k.after u).Bounded ∧ (k.after u).checkAfter = u.checkAfter := by
    refine ⟨k.bounded_after hu, ((k.waiting_close _).2.trans ?_).trans (k.checkAfter_collect u)⟩
    split <;> rfl
  obtain ⟨r, course, w⟩ := x
  cases course with
  | broken =>
    rw [h.2]
    exact ⟨hu, rfl⟩
  | unchecked =>
    rw [h.2]
    exact hafter
  | checked =>
    obtain rfl | ⟨-, rfl⟩ := h.2
    · exact hafter
    · exact ⟨.clearWaiting _, k.checkAfter_collect u⟩

/-- A command has a check made by one of two players that it leads on, just if it has one made by
the other. -/
theorem Leads.course_eq {k : Kind} {u u' v' : Opener Unit} {y : Remark ρ} (hx : Leads k u x u')
    (hy : Leads k u y v') (hxb : x.course ≠ .broken) (hyb : y.course ≠ .broken) :
    x.course = y.course := by
  obtain ⟨r, course, w⟩ := x
  obtain ⟨r', course', w'⟩ := y
  cases course <;> cases course' <;> first
    | rfl
    | exact absurd rfl hxb
    | exact absurd rfl hyb
    | exact absurd hx.1 hy.1
    | exact absurd hy.1 hx.1

namespace Counted

variable (hM : M.Counted shape kind)
include hM

theorem step_leads (h : M.Step c s x s') :
    x.waiting = (shape s').waiting ∧ Leads (kind c) (shape s) x (shape s') := by
  have hcalls : ∀ {u}, (M.collect c).Yields s () u →
      (M.Calls c u ↔ (kind c).Calls (shape s)) := fun h => by
    rw [Calls, Kind.Calls, hM.occasion, hM.checkAfter, hM.waiting, hM.collects h]
  cases h with
  | broken hcollect =>
    exact ⟨hM.waiting _, Remark.not_succeeds_error _ _ _, hM.breaks hcollect⟩
  | unchecked hcollect hnot =>
    have hnot' : ¬ (kind c).Calls (shape s) := fun h => hnot ((hcalls hcollect).mpr h)
    refine ⟨hM.waiting _, hnot', ?_⟩
    rw [hM.handsOut, hM.collects hcollect, Kind.after, if_neg hnot']
  | checked hcollect hcalled hcheck =>
    have hcalled' : (kind c).Calls (shape s) := (hcalls hcollect).mp hcalled
    refine ⟨hM.waiting _, hcalled', .inl ?_⟩
    rw [hM.handsOut, hM.checks hcheck, hM.collects hcollect, Kind.after, if_pos hcalled']
  | rejected hcollect hcalled hcheck =>
    refine ⟨hM.waiting _, (hcalls hcollect).mp hcalled,
      .inr ⟨Remark.not_succeeds_error _ _ _, ?_⟩⟩
    rw [hM.checks hcheck, hM.collects hcollect]

theorem noteAll_bounded (hs : (shape s).Bounded)
    (h : ((M.noteAll cs).run s).Returns (xs, s')) :
    ∀ x ∈ xs, x.waiting < max 1 (shape s).checkAfter := by
  induction cs generalizing s xs with
  | nil =>
    cases h
    exact fun x hx => absurd hx List.not_mem_nil
  | cons c rest ih =>
    obtain ⟨x, u, ys, rfl, hstep, hrest⟩ := noteAll_cons h
    obtain ⟨hwaiting, hleads⟩ := hM.step_leads hstep
    obtain ⟨hu, hcheckAfter⟩ := hleads.bounded hs
    rw [← hcheckAfter]
    exact List.forall_mem_cons.mpr ⟨hwaiting ▸ hu, ih hu hrest⟩

theorem staysBelow (hs : (shape s).Bounded) : M.StaysBelow (max 1 (shape s).checkAfter) s :=
  fun _ _ _ h => ⟨length_noteAll h, hM.noteAll_bounded hs h⟩

theorem noteAll_concur (hN : N.Counted shape kind) (hshape : shape s = shape t)
    (hkinds : cs.map kind = ds.map kind) (hs : ((M.noteAll cs).run s).Returns (xs, s'))
    (ht : ((N.noteAll ds).run t).Returns (ys, t')) : Remark.Concur xs ys := by
  induction cs generalizing ds s t xs ys with
  | nil =>
    cases hs
    exact fun k x y hx => by cases hx
  | cons c cs ih =>
    obtain ⟨d, ds, rfl, hkind, hrest⟩ := List.map_eq_cons_iff.mp hkinds.symm
    obtain ⟨x₀, u, xs, rfl, hstep, hsrest⟩ := noteAll_cons hs
    obtain ⟨y₀, v, ys, rfl, hstep', htrest⟩ := noteAll_cons ht
    obtain ⟨hwaiting, hleads⟩ := hM.step_leads hstep
    obtain ⟨hwaiting', hleads'⟩ := hN.step_leads hstep'
    rw [← hshape, hkind] at hleads'
    have hsame : x₀.Succeeds → y₀.Succeeds → shape u = shape v := fun h h' => by
      rw [hleads.after h, hleads'.after h']
    intro k x y hx hy hxs hys
    -- the first two remarks are compared by their steps, later ones from states of one shape
    cases k with
    | zero =>
      cases hx
      cases hy
      refine ⟨hleads.course_eq hleads', fun h h' => ?_⟩
      rw [hwaiting, hwaiting', hsame h h']
    | succ k =>
      have hx₀ : x₀.Succeeds := hxs x₀ List.mem_cons_self
      have hy₀ : y₀.Succeeds := hys y₀ List.mem_cons_self
      exact ih (hsame hx₀ hy₀) hrest.symm hsrest htrest k x y hx hy
        (fun z hz => hxs z (List.mem_cons_of_mem _ hz)) fun z hz =>
          hys z (List.mem_cons_of_mem _ hz)

theorem concurs (hN : N.Counted shape kind) (hshape : shape s = shape t) :
    M.Concurs N kind s t :=
  fun _ _ _ _ _ _ hkinds hs ht => hM.noteAll_concur hN hshape hkinds hs ht

end Counted

end Machine

end AuthShares
