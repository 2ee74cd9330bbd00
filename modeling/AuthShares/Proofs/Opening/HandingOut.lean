import AuthShares.Proofs.Aggregation.Owners
import AuthShares.Proofs.Opening.Escape
import AuthShares.Proofs.Opening.Lockstep
import AuthShares.Proofs.Opening.Standings

/-!
# What is handed out

An opener hands out whatever its batch holds, in every phase. A batch that has been exchanged
once since it was collected holds the sums of all players' shares; one that was never started,
that failed to be summed or that has been taken holds nothing. What is done one operation after
the other comes to no more than that: one operation is followed through the standing of the
batch, and a sequence of them by induction. This is said twice. Whatever the network does, only
the number of values is known. In lockstep they are the sums, as far as the shares are sent.
-/

set_option autoImplicit false

namespace AuthShares

open scoped BigOperators

variable {n : Nat} {capacity : Option Nat} {T : Type} [MacElement T]

open Opener

def Promise.counted : Promise T n where
  opens b v := v.length = b.length
  mayFail _ := True
  length := id
  nil := rfl

theorem Standing.mayFail_counted (s : Standing T n) : s.MayFail .counted := by
  cases s with
  | collected b => exact fun _ => trivial
  | summed b => trivial
  | unclear => trivial

section Network

variable [Wire T] {i : Fin n} {s : Standing T n} {o o' : Opener T} {r : Except Error (List T)}

theorem Joint.leaves_of_ends (h : s.Describes .counted i o) {joint : Joint T n}
    (hr : (joint.run i).Ends o r o') : joint.Leaves .counted i s o r o' := by
  cases joint with
  | start count room =>
    cases hr
    exact startFor_eq o room
  | prepare c len =>
    cases hr
    rfl
  | exchange =>
    obtain ⟨r', hexchange, rfl⟩ := Action.ends_bind_pure.mp hr
    have hcounts : ∀ v : List T, v.length = o.opened.length →
        ∀ b, s = .collected b → v.length = b.length := by
      rintro v hv b rfl
      rw [hv, h.1, Collection.values, List.length_map]
    exact ((exchange_ends hexchange).mono (fun _ => s.mayFail_counted)
      fun v hv => And.intro hv (hcounts v hv)).map _
  | finish =>
    cases hr
    exact ⟨rfl, rfl⟩
  | openAll b =>
    refine (openAll_ends hr).mono id fun v hv => hv.trans ?_
    rw [Collection.full, List.length_map, List.length_map]
  | openOne c =>
    obtain ⟨r₂, hone, rfl⟩ := Action.ends_bind_pure.mp hr
    obtain ⟨r₁, hall, rfl⟩ := Action.ends_bind_pure.mp hone
    exact (openAll_ends hall).single (fun _ hv => hv) (c.share i).value
  | addToCheck share opened =>
    obtain ⟨r', hadd, rfl⟩ := Action.ends_bind_pure.mp hr
    have hkeeps := checkIfDue_keeps (Action.ends_modify_bind.mp hadd)
    exact ⟨hkeeps.opened, hkeeps.lengths, hkeeps.phase⟩
  | check =>
    obtain ⟨r', hcheck, rfl⟩ := Action.ends_bind_pure.mp hr
    obtain rfl := check_ends hcheck
    exact ⟨rfl, rfl, rfl⟩
  | checkIfDue =>
    obtain ⟨r', hdue, rfl⟩ := Action.ends_bind_pure.mp hr
    exact checkIfDue_keeps hdue
  | setTopology field k =>
    cases hr
    exact ⟨rfl, rfl, rfl⟩

theorem noteAll_admits (h : s.Describes .counted i o) (joints : List (Joint T n))
    {notes : List (Note T)} (hr : ((noteAll i joints).run o).Returns (notes, o')) :
    s.AdmitsAll .counted joints notes := by
  induction joints generalizing s o notes with
  | nil =>
    cases hr
    trivial
  | cons joint rest ih =>
    obtain ⟨⟨r, u⟩, hjoint, hr⟩ :=
      (Protocol.returns_bind ((joint.run i).run.run o) _ _).mp hr
    obtain ⟨⟨notes', v⟩, hrest, hr⟩ :=
      (Protocol.returns_bind ((noteAll i rest).run u) _ _).mp hr
    cases hr
    obtain ⟨hadmits, hnext⟩ := h.step (Joint.leaves_of_ends h hjoint)
    exact ⟨hadmits, ih hnext hrest⟩

end Network

section Sums

variable [Written T]

open Modular Element

def Contribution.sum (c : Contribution T n) : T :=
  Element.total (List.ofFn fun i => (c.share i).value)

/-- Values of which some bytes are sent are opened if they are sent in full, or if all together
fit into the bytes that are sent; if not, they are opened modulo what the declared bytes and the
modulus have in common. -/
structure Contribution.Opens (c : Contribution T n) (len : Option Nat) (y : T) : Prop where
  exact : width T len = size T ∨ ∑ i, rep (c.share i).value < 256 ^ width T len → y = c.sum
  congruent (q : Nat) : q ∣ modulus T → q ∣ 256 ^ width T len →
    rep y ≡ ∑ i, rep (c.share i).value [MOD q]

/-- There is a value for every contribution, which opens it. The exchange fails only for a value
that is declared too long. -/
def Promise.summed : Promise T n where
  opens b v := List.Forall₂ (fun p y => p.1.Opens p.2 y) b v
  mayFail b := ¬ Fits T (b.map (·.2))
  length h := h.length_eq.symm
  nil := .nil

theorem Contribution.residue_sum (c : Contribution T n) :
    residue (modulus T) c.sum = ∑ i, residue (modulus T) (c.share i).value :=
  residue_total_ofFn dvd_rfl c.canonical

theorem Collection.opens_of_shows {b : Collection T n} {v : List T}
    (h : Shows (precision (b.map (·.2)) b.values) b.length b.values v fun _ => Finset.univ) :
    Promise.summed.opens b v := by
  refine List.forall₂_iff_get.mpr ⟨h.length.symm, fun k hk hkv => ?_⟩
  have hres := h.residue k hk
  have hcan := h.canonical k
  rw [List.getD_eq_getElem _ _ hkv] at hres hcan
  have hvalue : ∀ j, (b.values j).getD k 0 = (b[k].1.share j).value := fun j => by
    rw [List.getD_eq_getElem _ _ (by simpa [Collection.values] using hk)]
    simp [Collection.values]
  have hwidth : widthAt T (b.map (·.2)) k = width T b[k].2 := by
    rw [widthAt, List.getD_eq_getElem _ _ (by simpa using hk), List.getElem_map]
  simp only [hvalue] at hres
  constructor
  · intro hfull
    have hprecision : precision (b.map (·.2)) b.values k = modulus T := by
      refine precision_eq_modulus ?_
      simp only [hvalue, hwidth, byteRange_eq_pow]
      exact hfull
    rw [hprecision] at hres
    refine eq_of_residue hcan (total_ofFn_canonical b[k].1.canonical) ?_
    exact hres.trans b[k].1.residue_sum.symm
  · intro q hq hbytes
    have hdvd : q ∣ precision (b.map (·.2)) b.values k := by
      refine dvd_precision hq ?_
      rwa [hwidth, byteRange_eq_pow]
    refine Nat.ModEq.of_dvd hdvd ?_
    rw [← ZMod.natCast_eq_natCast_iff, Nat.cast_sum]
    exact hres

end Sums

section Lockstep

variable [Written T] {u : Opener Unit} {o : Fin n → Opener T} {s : Standing T n}

omit [Written T] in
theorem Opener.Alike.prepare (h : Alike u o) (c : Contribution T n) (len : Option Nat) :
    Alike (u.prepare ⟨(), ()⟩ len) fun i => (o i).prepare (c.share i) len where
  shape i := by rw [shape_prepare, h.shape i]
  canonical i := by
    have hvalue := c.canonical i
    by_cases hp : (o i).phase = .accumulating
    · rw [prepare_eq_append hp]
      exact List.forall_mem_append.mpr ⟨h.canonical i, List.forall_mem_singleton.mpr hvalue⟩
    · rw [prepare_eq_single hp]
      exact List.forall_mem_singleton.mpr hvalue

omit [Written T] in
theorem Opener.Alike.prepareAll (h : Alike u o) (b : List (Contribution T n)) :
    ∃ u' : Opener Unit, Alike u' fun i =>
      (b.map (·.share i)).foldl (fun o share => o.prepare share none) (o i) := by
  induction b generalizing u o with
  | nil => exact ⟨u, h⟩
  | cons c b ih => exact ih (h.prepare c none)

omit [Written T] in
theorem Opener.Alike.sentLengths_collected {P : Promise T n} (h : Alike u o)
    {b : Collection T n} {i : Fin n} (hs : (Standing.collected b).Describes P i (o i))
    (hphase : (o i).phase = .accumulating) : u.sentLengths = b.map (·.2) := by
  have hlengths := hs.2.2 hphase
  have hlength : (o i).lengths.length = (o i).opened.length := by
    rw [hlengths, hs.1, Collection.values, List.length_map, List.length_map]
  rw [← h.sentLengths i, sentLengths_eq hlength, hlengths]

/-- The sums of a batch that all players have collected open it. -/
theorem Collection.opens_of_summed (hpos : 0 < n) {b : Collection T n}
    (hs : ∀ i, (Standing.collected b).Describes .summed i (o i)) (h : Alike u o)
    {v : List T} (hv : Summed o u v) : Promise.summed.opens b v := by
  have hopened : (fun j => (o j).opened) = b.values := funext fun j => (hs j).1
  have hlength : u.opened.length = b.length := by
    rw [← h.length_opened ⟨0, hpos⟩, (hs _).1, Collection.values, List.length_map]
  rw [Summed, hopened, hlength] at hv
  by_cases hb : b = []
  · subst hb
    rw [List.length_eq_zero_iff.mp hv.length]
    exact .nil
  · rw [h.sentLengths_collected (hs ⟨0, hpos⟩) ((hs _).2.1 hb)] at hv
    exact opens_of_shows hv

/-- A batch that all players have collected with lengths that do not fit can fail. -/
theorem Standing.mayFail_summed (hpos : 0 < n) (hs : ∀ i, s.Describes .summed i (o i))
    (h : Alike u o) (hfault : ¬ Element.Fits T u.sentLengths) : s.MayFail Promise.summed := by
  cases s with
  | collected b =>
    intro hb
    rw [h.sentLengths_collected (hs ⟨0, hpos⟩) ((hs _).2.1 hb)] at hfault
    exact hfault
  | summed b => trivial
  | unclear => trivial

variable [Wire T] [LawfulWire T]

theorem Opener.openAll_alike (hcap : capacity ≠ some 0) (hpos : 0 < n) (hn : 2 * n < wordRange)
    (h : Alike u o) (b : List (Contribution T n)) (t : Fin n → Tape) :
    ∃ (r : Fin n → Except Error (List T)) (u' : Opener Unit) (o' : Fin n → Opener T)
      (t' : Fin n → Tape), World.Together capacity
        (fun i => (openAll (Player.numbered i) (b.map (·.share i))).run.run (o i)) t
        (fun i => (r i, o' i)) t' ∧
      Alike u' o' ∧ ∀ i, HandedOut (Promise.summed.mayFail (Collection.full b))
        (Promise.summed.opens (Collection.full b)) (r i) (o' i) := by
  obtain ⟨v, hbatch⟩ := h.start.prepareAll b
  have hdescribes : ∀ i, (Standing.collected (Collection.full b)).Describes .summed i
      ((b.map (·.share i)).foldl (fun o share => o.prepare share none) (o i).start) := by
    intro i
    rw [prepareAll_eq rfl]
    exact ⟨by simp [start, clear, Collection.values, Collection.full], fun _ => rfl,
      fun _ => by simp [start, clear, Collection.full]⟩
  obtain ⟨r, u', o', t', htog, h', hexchanged⟩ := exchange_alike hcap hpos hn hbatch t
  have hlengths : v.sentLengths = (Collection.full b).map (·.2) :=
    hbatch.sentLengths_collected (hdescribes ⟨0, hpos⟩) (by rw [prepareAll_eq rfl]; rfl)
  rw [hlengths] at hexchanged
  have hopens := fun i => (hexchanged i).mono id fun v hv =>
    Collection.opens_of_summed hpos hdescribes hbatch hv
  cases r with
  | ok a =>
    refine ⟨fun i => .ok (o' i).opened, u'.finish.2, fun i => (o' i).finish.2, t', ?_,
      h'.finish, fun i => (hopens i).finish⟩
    exact Accord.thenDo (Accord.of_done (fun _ => rfl) t)
      (Accord.thenDo htog (World.Together.pure _ t'))
  | error e =>
    refine ⟨fun _ => .error e, u', o', t', ?_, h', fun i => (hopens i).fail⟩
    exact Accord.thenDo (Accord.of_done (fun _ => rfl) t)
      (World.Together.bind htog (World.Together.pure _ t'))

/-- Players in lockstep get through every operation together. -/
theorem Joint.run_alike (hcap : capacity ≠ some 0) (hpos : 0 < n) (hn : 2 * n < wordRange)
    (h : Alike u o) (hs : ∀ i, s.Describes .summed i (o i)) (joint : Joint T n)
    (t : Fin n → Tape) :
    ∃ (r : Fin n → Except Error (List T)) (u' : Opener Unit) (o' : Fin n → Opener T)
      (t' : Fin n → Tape), World.Together capacity (fun i => (joint.run i).run.run (o i)) t
        (fun i => (r i, o' i)) t' ∧
      Alike u' o' ∧ ∀ i, joint.Leaves .summed i s (o i) (r i) (o' i) := by
  have hn' : n < wordRange := by omega
  cases joint with
  | start count room =>
    refine ⟨fun _ => .ok [], u.start, fun i => (o i).start, t, ?_, h.start, fun _ => rfl⟩
    refine Accord.of_done (a := fun _ => []) (fun i => ?_) t
    rw [← (o i).startFor_eq room]
    rfl
  | prepare c len =>
    exact ⟨fun _ => .ok [], _, _, t, Accord.of_done (fun _ => rfl) t, h.prepare c len, fun _ => rfl⟩
  | exchange =>
    obtain ⟨r, u', o', t', htog, h', hexchanged⟩ := exchange_alike hcap hpos hn h t
    have hopens : ∀ i v, Summed o u v →
        v.length = (o i).opened.length ∧ ∀ b, s = .collected b → Promise.summed.opens b v := by
      intro i v hv
      refine ⟨hv.length.trans (h.length_opened i).symm, ?_⟩
      rintro b rfl
      exact Collection.opens_of_summed hpos hs h hv
    exact ⟨fun _ => r.map fun _ => [], u', o', t', htog.mapValue fun _ _ => [], h',
      fun i => ((hexchanged i).mono (Standing.mayFail_summed hpos hs h) (hopens i)).map _⟩
  | finish =>
    exact ⟨fun i => .ok (o i).opened, u.finish.2, fun i => (o i).finish.2, t,
      Accord.of_done (fun _ => rfl) t, h.finish, fun _ => ⟨rfl, rfl⟩⟩
  | openAll b => exact openAll_alike hcap hpos hn h b t
  | openOne c =>
    obtain ⟨r, u', o', t', htog, h', hout⟩ := openAll_alike hcap hpos hn h [c] t
    have hone := htog.mapValue fun i (v : List T) => v.headD (c.share i).value
    exact ⟨_, u', o', t', hone.mapValue fun _ y => [y], h', fun i =>
      (hout i).single (fun _ hv => Promise.summed.length hv) (c.share i).value⟩
  | addToCheck share opened =>
    have hadd : Alike (u.addWaiting () ()) fun i => (o i).addWaiting (share i).mac (opened i) :=
      h.change (f := (·.addWaiting () ())) (fun i => shape_addWaiting _ _ _) fun _ _ hy => hy
    obtain ⟨r, u', o', t', htog, h', hkeeps⟩ := checkIfDue_alike hcap hn' hadd t
    refine ⟨fun _ => r.map fun _ => [], u', o', t', ?_, h',
      fun i => ⟨(hkeeps i).opened, (hkeeps i).lengths, (hkeeps i).phase⟩⟩
    refine World.Together.mapValue (fun _ _ => []) ?_
    exact Accord.thenDo (Accord.of_done (fun _ => rfl) t) htog
  | check =>
    obtain ⟨r, t', htog⟩ := check_alike hcap hn' h t
    exact ⟨fun _ => r.map fun _ => [], _, _, t', htog.mapValue fun _ _ => [],
      h.change (fun i => shape_clearWaiting (o i)) fun _ _ hy => hy, fun _ => ⟨rfl, rfl, rfl⟩⟩
  | checkIfDue =>
    obtain ⟨r, u', o', t', htog, h', hkeeps⟩ := checkIfDue_alike hcap hn' h t
    exact ⟨fun _ => r.map fun _ => [], u', o', t', htog.mapValue fun _ _ => [], h', hkeeps⟩
  | setTopology field k =>
    exact ⟨fun _ => .ok [], _, fun i => (o i).setTopology field k, t,
      Accord.of_done (fun _ => rfl) t,
      h.change (f := (·.setTopology field k)) (fun i => shape_setTopology (o i) field k)
        fun _ _ hy => hy, fun _ => ⟨rfl, rfl, rfl⟩⟩

omit [Written T] [LawfulWire T] in
theorem noteAll_cons {joint : Joint T n} {rest : List (Joint T n)} {t t' t'' : Fin n → Tape}
    {r : Fin n → Except Error (List T)} {o' o'' : Fin n → Opener T} {notes : Fin n → List (Note T)}
    (hjoint : World.Together capacity (fun i => (joint.run i).run.run (o i)) t
      (fun i => (r i, o' i)) t')
    (hrest : World.Together capacity (fun i => (noteAll i rest).run (o' i)) t'
      (fun i => (notes i, o'' i)) t'') :
    World.Together capacity (fun i => (noteAll i (joint :: rest)).run (o i)) t
      (fun i => ((r i, (o' i).phase) :: notes i, o'' i)) t'' :=
  World.Together.bind hjoint (World.Together.bind (World.Together.pure (fun i => (o' i, o' i)) t')
    (World.Together.bind hrest (World.Together.pure _ t'')))

/-- Players in lockstep get through all operations, and every one comes to what it may come to. -/
theorem noteAll_together (hcap : capacity ≠ some 0) (hpos : 0 < n) (hn : 2 * n < wordRange)
    (h : Alike u o) (hs : ∀ i, s.Describes .summed i (o i)) (joints : List (Joint T n))
    (t : Fin n → Tape) :
    ∃ (notes : Fin n → List (Note T)) (o' : Fin n → Opener T) (t' : Fin n → Tape),
      World.Together capacity (fun i => (noteAll i joints).run (o i)) t
        (fun i => (notes i, o' i)) t' ∧
      ∀ i, s.AdmitsAll .summed joints (notes i) := by
  induction joints generalizing s u o t with
  | nil => exact ⟨fun _ => [], o, t, World.Together.pure _ t, fun _ => trivial⟩
  | cons joint rest ih =>
    obtain ⟨r, u', o', t', hjoint, h', hleaves⟩ := joint.run_alike hcap hpos hn h hs t
    have hphase : ∀ i, (o' i).phase = u'.phase := fun i => congrArg Opener.phase (h'.shape i)
    have hstep := fun i => (hs i).step (hleaves i)
    simp only [hphase] at hstep
    obtain ⟨notes, o'', t'', hrest, hnotes⟩ := ih h' (fun i => (hstep i).2) t'
    have htog := noteAll_cons hjoint hrest
    simp only [hphase] at htog
    exact ⟨_, o'', t'', htog, fun i => ⟨(hstep i).1, hnotes i⟩⟩

/-- Whatever shares the players come with, in lockstep they get through all operations, in
whatever order they move. An exchange then sums a batch unless a value is declared too long, and
what is handed out for a batch that has been exchanged once opens it. Whatever the network does,
nothing is handed out if there is no batch or if it was not summed, and as many values as there
are in the batch if it was. There are as many players as signed words can number. -/
theorem noteAll_handsOut (hcap : capacity ≠ some 0) (hpos : 0 < n) (hn : 2 * n < wordRange)
    (c : Config) (mode : ExchangeMode) (key : Fin n → T) (joints : List (Joint T n))
    (t : Fin n → Tape) :
    (∃ (notes : Fin n → List (Note T)) (o : Fin n → Opener T) (t' : Fin n → Tape),
      World.EndsIn capacity
        (World.start (fun i => (noteAll i joints).run (.new mode (key i) c)) t .empty)
        (World.start (fun i => .done (notes i, o i)) t' .empty) ∧
      ∀ i, (Standing.collected []).AdmitsAll .summed joints (notes i)) ∧
    ∀ i notes o, ((noteAll i joints).run (.new mode (key i) c)).Returns (notes, o) →
      (Standing.collected []).AdmitsAll .counted joints notes := by
  constructor
  · have halike : Alike (.new mode () c) fun i => Opener.new mode (key i) c :=
      ⟨fun _ => rfl, fun _ _ hy => absurd hy List.not_mem_nil⟩
    obtain ⟨notes, o, t', htog, hnotes⟩ := noteAll_together hcap hpos hn halike
      (fun _ => .of_empty rfl rfl) joints t
    exact ⟨notes, o, t', htog.endsIn, hnotes⟩
  · intro i notes o hr
    exact noteAll_admits (.of_empty rfl rfl) joints hr

end Lockstep

def sevenShares (tampered : Bool) : Contribution Mersenne61 2 where
  share i := ⟨(Sharing.seven.share i).value,
    if tampered then ⟨10⟩ else (Sharing.seven.share i).mac⟩
  canonical := Sharing.seven.value_canonical

theorem Standing.AdmitsAll.single {c : Contribution T n} [Written T] {notes : List (Note T)}
    (h : (Standing.collected []).AdmitsAll .summed [.prepare c none, .exchange, .finish] notes) :
    ∃ first second phase, notes = [first, (second, .exchanged), (.ok [c.sum], phase)] := by
  obtain _ | ⟨first, _ | ⟨⟨second, phase⟩, _ | ⟨⟨last, left⟩, _ | ⟨extra, rest⟩⟩⟩⟩ := notes
  · cases h
  · cases h.2
  · cases h.2.2
  · obtain ⟨-, hexchange, hfinish, -⟩ := h
    have hfits : Element.Fits T [none] := fun len hlen => by
      rw [List.mem_singleton.mp hlen]
      exact le_rfl
    obtain hphase | ⟨-, -, hfail⟩ := hexchange
    · cases hphase
      obtain ⟨v, hv, hopens⟩ := hfinish
      obtain ⟨y, w, hy, hw, rfl⟩ := List.forall₂_cons_left_iff.mp hopens
      cases hw
      cases hy.exact (.inl rfl)
      exact ⟨first, second, left, by rw [show last = _ from hv]⟩
    · exact absurd hfits (hfail (List.cons_ne_nil _ _))
  · cases h.2.2.2

theorem noteAll_handsOut_seven : (none : Option Nat) ≠ some 0 ∧ 0 < 2 ∧ 2 * 2 < wordRange ∧
    ∃ (notes : Fin 2 → List (Note Mersenne61)) (o : Fin 2 → Opener Mersenne61)
      (t' : Fin 2 → Tape), World.EndsIn none
        (World.start (fun i => (noteAll i
            [.prepare (sevenShares true) none, .exchange, .finish]).run
          (.new .aggregated (sevenKey i) ⟨0, 0, 0, 1⟩)) (fun _ _ => zeroBytes) .empty)
        (World.start (fun i => .done (notes i, o i)) t' .empty) ∧
      ∀ i, ∃ first second phase, notes i = [first, (second, .exchanged), (.ok [⟨7⟩], phase)] := by
  have hcap : (none : Option Nat) ≠ some 0 := by simp
  have hsum : (sevenShares true).sum = ⟨7⟩ := by decide
  have h := noteAll_handsOut hcap (n := 2) (by decide) (by decide) ⟨0, 0, 0, 1⟩ .aggregated sevenKey
    [.prepare (sevenShares true) none, .exchange, .finish] fun _ _ => zeroBytes
  obtain ⟨notes, o, t', hends, hadmits⟩ := h.1
  exact ⟨hcap, by decide, by decide, notes, o, t', hends, fun i => hsum ▸ (hadmits i).single⟩

section Others

variable [Wire T] {o u : Fin n → Opener T} {t t' t'' : Fin n → Tape} {rest : List (Joint T n)}
  {notes : Fin n → List (Note T)} {o' : Fin n → Opener T}

theorem Opener.exchange_undue
    (h : Accord capacity (fun i => exchangeShares (Player.numbered i)) o t (fun _ => ()) u t')
    (hdue : ∀ i, (u i).record.waiting < (u i).checkAfter) :
    Accord capacity (fun i => exchange (Player.numbered i)) o t (fun _ => ())
      (fun i => (u i).record) t' :=
  exchange_of_shares h (Accord.of_done (fun i => checkIfDue_run_of_lt (hdue i) _) t')

theorem noteAll_finish : World.Together capacity
    (fun i => (noteAll i [(.finish : Joint T n)]).run (o i)) t
    (fun i => ([(.ok (o i).opened, .idle)], (o i).finish.2)) t := by
  have hfinish : World.Together capacity
      (fun i => ((.finish : Joint T n).run i).run.run (o i)) t
      (fun i => (.ok (o i).opened, (o i).finish.2)) t := Accord.of_done (fun _ => rfl) t
  exact noteAll_cons hfinish (World.Together.pure (fun i => ([], (o i).finish.2)) t)

theorem noteAll_exchange {r : Except Error Unit}
    (h : World.Together capacity (fun i => (exchange (Player.numbered i)).run.run (o i)) t
      (fun i => (r, u i)) t')
    (hrest : World.Together capacity (fun i => (noteAll i rest).run (u i)) t'
      (fun i => (notes i, o' i)) t'') :
    World.Together capacity (fun i => (noteAll i (.exchange :: rest)).run (o i)) t
      (fun i => ((r.map fun _ => [], (u i).phase) :: notes i, o' i)) t'' :=
  noteAll_cons (h.mapValue fun _ _ => []) hrest

theorem noteAll_prepare {c : Contribution T n} {len : Option Nat}
    (hrest : World.Together capacity
      (fun i => (noteAll i rest).run ((o i).prepare (c.share i) len)) t
      (fun i => (notes i, o' i)) t') :
    World.Together capacity (fun i => (noteAll i (.prepare c len :: rest)).run (o i)) t
      (fun i => ((.ok [], ((o i).prepare (c.share i) len).phase) :: notes i, o' i)) t' :=
  noteAll_cons (Accord.of_done (fun _ => rfl) t) hrest

end Others

def ComesTo [Wire T] (key : Fin n → T) (c : Config) (joints : List (Joint T n))
    (notes : Fin n → List (Note T)) : Prop :=
  ∃ (o : Fin n → Opener T) (t' : Fin n → Tape), World.EndsIn none
    (World.start (fun i => (noteAll i joints).run (.new .aggregated (key i) c))
      (fun _ _ => zeroBytes) .empty)
    (World.start (fun i => .done (notes i, o i)) t' .empty)

def carryingPair (k : Nat) : Contribution Ring128 2 :=
  ⟨fun i => ⟨(carrying i).getD k 0, 0⟩, fun _ => rfl⟩

theorem carryingPair_comesTo : ComesTo (fun _ => 0) ⟨2, 0, 0, 1000⟩
    [.prepare (carryingPair 0) (some 8), .prepare (carryingPair 1) (some 8), .exchange, .finish]
    fun i => [(.ok [], .accumulating), (.ok [], .accumulating), (.ok [], .exchanged),
      (.ok (kept i), .idle)] := by
  let o : Fin 2 → Opener Ring128 := fun i =>
    ((Opener.new .aggregated 0 ⟨2, 0, 0, 1000⟩).prepare ((carryingPair 0).share i)
      (some 8)).prepare ((carryingPair 1).share i) (some 8)
  have hopened : ∀ i, (o i).opened = carrying i := by decide
  have hlength : ∀ i, max 2 (kept i).length < 1000 := by decide
  obtain ⟨s', hacc, hs'⟩ := carrying_accord fun _ _ => zeroBytes
  have hsums := Aggregator.sumEach_of_exchange (a := .ofConfig ⟨2, 0, 0, 1⟩) hacc
  simp only [hs', ← hopened] at hsums
  have hexchange := Opener.exchange_undue (Opener.exchangeShares_of_sums (o := o) hsums) hlength
  have htog := noteAll_prepare (noteAll_prepare (noteAll_exchange hexchange noteAll_finish))
  exact ⟨_, _, htog.endsIn⟩

theorem unopened_comesTo : ComesTo sevenKey .default [.prepare (sevenShares false) none, .finish]
    fun i => [(.ok [], .accumulating), (.ok [(Sharing.seven.share i).value], .idle)] :=
  ⟨_, _, (noteAll_prepare noteAll_finish).endsIn⟩

theorem exchangedTwice_comesTo : ComesTo sevenKey .default
    [.prepare (sevenShares false) none, .exchange, .exchange, .finish]
    fun _ => [(.ok [], .accumulating), (.ok [], .exchanged), (.ok [], .exchanged),
      (.ok [⟨14⟩], .idle)] := by
  let t : Fin 2 → Tape := fun _ _ => zeroBytes
  have hcap : (none : Option Nat) ≠ some 0 := by simp
  have hkey : ∀ i, Element.isCanonical (sevenKey i) := by decide
  let o : Fin 2 → Opener Mersenne61 := fun i =>
    (Opener.new .aggregated (sevenKey i) .default).prepare ((sevenShares false).share i) none
  obtain ⟨aggregator, hfirst, ha⟩ := Opener.exchangeShares_accord (o := o) hcap (by decide)
    (by decide) (fun _ => rfl) (a := .ofConfig .default) (fun _ => ⟨[], rfl⟩) [Sharing.seven]
    (fun _ => rfl) (fun _ => rfl) t
  obtain ⟨aggregator', hsecond, -⟩ := Opener.exchangeShares_accord
    (o := fun i => Opener.record { o i with opened := [⟨7⟩], aggregator := aggregator i })
    hcap (by decide) (by decide) (fun _ => rfl) ha
    [Sharing.repeated hkey Sharing.seven.secret_canonical] (fun _ => rfl) (fun _ => rfl) t
  have hdue : ∀ k ≤ 2, k < Config.default.checkAfter := by decide
  have hone := Opener.exchange_undue hfirst fun _ => hdue 1 (by decide)
  have htwo := Opener.exchange_undue hsecond fun _ => hdue 2 (by decide)
  have htog := noteAll_prepare (noteAll_exchange hone (noteAll_exchange htwo noteAll_finish))
  exact ⟨_, _, htog.endsIn⟩

theorem tampered_comesTo : ComesTo sevenKey ⟨0, 0, 0, 1⟩
    [.prepare (sevenShares true) none, .exchange, .finish]
    fun _ => [(.ok [], .accumulating), (.error .macCheckFailed, .exchanged),
      (.ok [⟨7⟩], .idle)] := by
  let t : Fin 2 → Tape := fun _ _ => zeroBytes
  have hcap : (none : Option Nat) ≠ some 0 := by simp
  let o : Fin 2 → Opener Mersenne61 := fun i =>
    (Opener.new .aggregated (sevenKey i) ⟨0, 0, 0, 1⟩).prepare ((sevenShares true).share i) none
  obtain ⟨aggregator, hshares, -⟩ := Opener.exchangeShares_accord (o := o) hcap (by decide)
    (by decide) (fun _ => rfl) (a := .ofConfig ⟨0, 0, 0, 1⟩) (fun _ => ⟨[], rfl⟩) [Sharing.seven]
    (fun _ => rfl) (fun _ => rfl) t
  let u : Fin 2 → Opener Mersenne61 := fun i =>
    Opener.record { o i with opened := [⟨7⟩], aggregator := aggregator i }
  have herror : MacElement.isZero (Element.total (List.ofFn fun j : Fin 2 =>
      weighted MacElement.random 0 [((sevenShares true).share j).mac] (Interaction.commonCoins t) -
        sevenKey j * weighted MacElement.random 0 [⟨7⟩] (Interaction.commonCoins t))) = false := by
    decide +kernel
  have hverdict := Opener.checkWith_verdict hcap (by decide) MacElement.random (o := u)
    (fun _ => one_ne_zero) t
  have hzero : MacElement.isZero (Element.total (List.ofFn fun j =>
      Opener.waitingError MacElement.random (Interaction.commonCoins t) (u j))) = false := herror
  simp only [Opener.checkWith_random, hzero, Bool.false_eq_true, ↓reduceIte] at hverdict
  have hdue : ∀ i, (u i).checkAfter ≤ (u i).waiting := fun _ => le_rfl
  simp only [← fun i => Opener.checkIfDue_run_of_le (hdue i) (Player.numbered i)] at hverdict
  have hexchange := Opener.exchange_of_shares hshares hverdict
  exact ⟨_, _, (noteAll_prepare (noteAll_exchange hexchange noteAll_finish)).endsIn⟩

/-- What is handed out need not be the sum of all shares, each entered once, and need not have
been exchanged without an error: a sum may not fit into the declared bytes, the check that
follows an exchange may fail, a batch may be exchanged twice, or not at all. -/
theorem handsOut_other :
    (ComesTo (fun _ => 0) ⟨2, 0, 0, 1000⟩
        [.prepare (carryingPair 0) (some 8), .prepare (carryingPair 1) (some 8), .exchange, .finish]
        (fun i => [(.ok [], .accumulating), (.ok [], .accumulating), (.ok [], .exchanged),
          (.ok (kept i), .idle)]) ∧
      kept 1 ≠ [(carryingPair 0).sum, (carryingPair 1).sum]) ∧
    ComesTo sevenKey ⟨0, 0, 0, 1⟩ [.prepare (sevenShares true) none, .exchange, .finish]
      (fun _ => [(.ok [], .accumulating), (.error .macCheckFailed, .exchanged),
        (.ok [⟨7⟩], .idle)]) ∧
    ComesTo sevenKey .default [.prepare (sevenShares false) none, .exchange, .exchange, .finish]
      (fun _ => [(.ok [], .accumulating), (.ok [], .exchanged), (.ok [], .exchanged),
        (.ok [⟨14⟩], .idle)]) ∧
    ComesTo sevenKey .default [.prepare (sevenShares false) none, .finish]
      (fun i => [(.ok [], .accumulating), (.ok [(Sharing.seven.share i).value], .idle)]) ∧
    (sevenShares false).sum = ⟨7⟩ :=
  ⟨⟨carryingPair_comesTo, by decide⟩, tampered_comesTo, exchangedTwice_comesTo, unopened_comesTo,
    by decide⟩

end AuthShares
