import AuthShares.Proofs.Agreement.Honest

/-!
# Commitments come before openings

A party opens its value only when it holds a commitment from every other party and, with more
than two parties, when all of them have repeated what it heard. This rests on the order in
which it sends and takes in messages alone, whatever the others send it and whenever. So
whoever opens a value to it has had to choose the value before.
-/

set_option autoImplicit false

namespace AuthShares

open Interaction

variable {n : Nat} {α β : Type} {i : Fin n} {phase : String} {t t' : Tape} {log : List Deed}

def commitmentLists (c : Fin n → Bytes32) : List (List Bytes32) := List.ofFn fun k => [c k]

def HeardCommitments (i : Fin n) (phase : String) (c : Fin n → Bytes32) (log : List Deed) : Prop :=
  ∀ k : Fin n, k ≠ i → ∃ bs, heardFrom k log = [bs] ∧
    decodeListOf (phase ++ " comm") 1 bs = .ok [c k]

/-- One commitment has come from every other party and then, with more than two parties, the
digests that are one's own, and nothing else. -/
structure Ready (i : Fin n) (phase : String) (c : Fin n → Bytes32) (log : List Deed) : Prop where
  few : n ≤ 2 → HeardCommitments i phase c log
  many : 2 < n → ∀ k : Fin n, k ≠ i → ∃ bs echo, heardFrom k log = [bs, echo] ∧
    decodeListOf (phase ++ " comm") 1 bs = .ok [c k] ∧
    decodeListOf (phase ++ " comm" ++ " verification") n echo = .ok (digests (commitmentLists c))

theorem Exchanged.singletons [Wire α] {x : α} {all : List (List α)}
    (h : Exchanged i phase [x] log all) :
    ∃ c : Fin n → α, c i = x ∧ all = List.ofFn (fun k => [c k]) ∧
      ∀ k : Fin n, k ≠ i → ∃ bs, heardFrom k log = [bs] ∧ decodeListOf phase 1 bs = .ok [c k] := by
  have hone : ∀ k : Fin n, ∃ y, all[k.val]? = some [y] := fun k => by
    have hk : k.val < all.length := by
      rw [h.length]
      exact k.isLt
    obtain ⟨y, hy⟩ := List.length_eq_one_iff.mp (h.length_of_mem (List.getElem_mem hk))
    exact ⟨y, (List.getElem?_eq_getElem hk).trans (congrArg some hy)⟩
  choose c hc using hone
  refine ⟨c, ?_, ?_, fun k hki => ?_⟩
  · simpa using (hc i).symm.trans h.own
  · refine List.ext_getElem (by simp [h.length]) fun k hk hk' => ?_
    have hget := hc ⟨k, h.length ▸ hk⟩
    rw [List.getElem?_eq_getElem hk] at hget
    simpa using hget
  · obtain ⟨bs, list, hheard, hdecode, hlist⟩ := h.heard k hki
    obtain rfl := Option.some.inj ((hc k).symm.trans hlist)
    exact ⟨bs, hheard, hdecode⟩

/-- With more than two parties, a party that compares what it received sends its digests to every
other one before it hears anything. -/
theorem sent_in_compareViews [Wire α] {all : List (List α)} {before after : List Deed} {b : Nat}
    {bs : Bytes} {r : Runner (Except Error (List (List α)))}
    (h : Trail (.start (compareViews (Player.numbered i) phase all).run t)
      (before ++ .sent b bs :: after) r) :
    2 < n ∧ bs = Wire.encode (digests all) ∧ b ∈ (Player.numbered i).others ∧
      sentTo b before = [] ∧ ∀ a, heardFrom a before = [] := by
  by_cases hn : n ≤ 2
  · rw [compareViews, Player.numbered_players, if_pos hn] at h
    obtain ⟨hnil, -⟩ := Trail.of_done h
    simp at hnil
  · rw [compareViews, Player.numbered_players, if_neg hn] at h
    refine ⟨by omega, ?_⟩
    rcases h.thenDo_cases with ⟨⟨r', hb⟩, -⟩ | ⟨views, k, k', u, hlog, hb, hrest⟩
    · obtain ⟨r', hb⟩ := hb.of_lift
      exact Link.sent_in_broadcast hb
    · have hnil : k' = [] := by
        split at hrest
        · exact (Trail.of_done hrest).1
        · exact (Trail.of_done hrest).1
      rw [hnil, List.append_nil] at hlog
      exact Link.sent_in_broadcast (hlog ▸ hb.of_lift)

variable [Wire α]

/-- What party `i` may send after what it has done `before`: its commitment, the digests of all
commitments, or its opening. -/
inductive Sends (i : Fin n) (phase : String) (v : α) (r : Bytes32) (c : Fin n → Bytes32)
    (before : List Deed) (b : Nat) : Bytes → Prop
  | commitment (h : sentTo b before = []) : Sends i phase v r c before b (Wire.encode [c i])
  | digests (hn : 2 < n) (h : sentTo b before = [Wire.encode [c i]])
      (hheard : HeardCommitments i phase c before) :
      Sends i phase v r c before b (Wire.encode (digests (commitmentLists c)))
  | opening (hready : Ready i phase c before) : Sends i phase v r c before b (Wire.encode [(v, r)])

def Guarded (i : Fin n) (phase : String) (v : α) (r : Bytes32) (c : Fin n → Bytes32)
    (log : List Deed) : Prop :=
  ∀ before b bs after, log = before ++ .sent b bs :: after → Sends i phase v r c before b bs

/-- Party `i` has returned its own value, and from every other party one that this party had
committed to before `i` opened its own. -/
structure Bound (i : Fin n) (phase : String) (v : α) (r : Bytes32) (c : Fin n → Bytes32)
    (log : List Deed) (values : List α) : Prop where
  length : values.length = n
  own : values[i.val]? = some v
  ready : ∃ before after, log = before ++ after ∧ Ready i phase c before ∧
    ∀ k : Fin n, k ≠ i → sentTo k after = [Wire.encode [(v, r)]]
  others : ∀ k : Fin n, k ≠ i → ∃ w s, values[k.val]? = some w ∧
    Blake3.hash (committedBytes w s k) = c k ∧
    ∀ w' s', Blake3.hash (committedBytes w' s' k) = c k →
      Set.InjOn Blake3.hash {committedBytes w s k, committedBytes w' s' k} → w' = w

variable {v : α} {r : Bytes32} {c : Fin n → Bytes32} {l l' : List Deed}

theorem Guarded.nil : Guarded i phase v r c [] := fun before b bs after h => by simp at h

theorem Guarded.append (h : Guarded i phase v r c l)
    (h' : ∀ before b bs after, l' = before ++ .sent b bs :: after →
      Sends i phase v r c (l ++ before) b bs) : Guarded i phase v r c (l ++ l') := by
  intro before b bs after hlog
  rcases split_append hlog with ⟨rest, hl⟩ | ⟨rest, rfl, hl'⟩
  · exact h before b bs rest hl
  · exact h' rest b bs after hl'

theorem Trail.guarded_commitments {r' : Runner (Except ChannelError (List (List Bytes32)))}
    (h : Trail (.start (Link.broadcast (Player.numbered i) (phase ++ " comm") [c i]).run t) log
      r') : Guarded i phase v r c log := by
  rintro before b bs after rfl
  obtain ⟨rfl, -, hto, -⟩ := Link.sent_in_broadcast h
  exact .commitment hto

theorem Trail.guarded_digests {r' : Runner (Except Error (List (List Bytes32)))}
    (hl : Guarded i phase v r c l)
    (hall : Exchanged i (phase ++ " comm") [c i] l (commitmentLists c))
    (hheard : HeardCommitments i phase c l)
    (h : Trail (.start (compareViews (Player.numbered i) (phase ++ " comm")
      (commitmentLists c)).run t) l' r') : Guarded i phase v r c (l ++ l') := by
  refine hl.append ?_
  rintro before b bs after rfl
  obtain ⟨hn, rfl, hother, hto, hfrom⟩ := sent_in_compareViews h
  obtain ⟨hbn, hbi⟩ := Player.mem_others.mp hother
  refine .digests hn ?_ fun k hki => ?_
  · rw [sentTo_append, hto, List.append_nil]
    exact hall.sent ⟨b, hbn⟩ fun hb => hbi (congrArg Fin.val hb)
  · obtain ⟨bs, hbs, hdecode⟩ := hheard k hki
    exact ⟨bs, by rw [heardFrom_append, hbs, hfrom, List.append_nil], hdecode⟩

theorem Compared.ready (hheard : HeardCommitments i phase c l)
    (h : Compared i (phase ++ " comm") (commitmentLists c) l') : Ready i phase c (l ++ l') where
  few hn := by
    rw [h.few hn, List.append_nil]
    exact hheard
  many hn k hki := by
    obtain ⟨views, hviews, hsame⟩ := h.many hn
    obtain ⟨bs, hbs, hdecode⟩ := hheard k hki
    obtain ⟨echo, view, hecho, hview, hget⟩ := hviews.heard k hki
    obtain rfl := hsame view (List.mem_of_getElem? hget)
    have hlength : (digests (commitmentLists c)).length = n := by simp [digests, commitmentLists]
    rw [hlength] at hview
    exact ⟨bs, echo, by rw [heardFrom_append, hbs, hecho]; rfl, hdecode, hview⟩

theorem Ready.append (h : Ready i phase c l) (hl' : ∀ a, heardFrom a l' = []) :
    Ready i phase c (l ++ l') where
  few hn k hki := by
    obtain ⟨bs, hbs, hdecode⟩ := h.few hn k hki
    exact ⟨bs, by rw [heardFrom_append, hbs, hl', List.append_nil], hdecode⟩
  many hn k hki := by
    obtain ⟨bs, echo, hbs, hdecode⟩ := h.many hn k hki
    exact ⟨bs, echo, by rw [heardFrom_append, hbs, hl', List.append_nil], hdecode⟩

theorem Trail.guarded_openings {r' : Runner (Except ChannelError (List (List (α × Bytes32))))}
    (hl : Guarded i phase v r c l) (hready : Ready i phase c l)
    (h : Trail (.start (Link.broadcast (Player.numbered i) (phase ++ " open") [(v, r)]).run t) l'
      r') : Guarded i phase v r c (l ++ l') := by
  refine hl.append ?_
  rintro before b bs after rfl
  obtain ⟨rfl, -, -, hfrom⟩ := Link.sent_in_broadcast h
  exact .opening (hready.append hfrom)

theorem Succeeds.of_commitments (v : α) (r : Bytes32) {d : Bytes32} {all : List (List Bytes32)}
    (h : Succeeds (liftM (Link.broadcast (Player.numbered i) (phase ++ " comm") [d]) :
      Interaction _) t log all t') :
    t' = t ∧ ∃ c : Fin n → Bytes32, c i = d ∧ all = commitmentLists c ∧
      Exchanged i (phase ++ " comm") [c i] log (commitmentLists c) ∧
      HeardCommitments i phase c log ∧ Guarded i phase v r c log := by
  obtain ⟨rfl, hall⟩ := h.of_lift.of_broadcast
  obtain ⟨c, rfl, rfl, hheard⟩ := hall.singletons
  exact ⟨rfl, c, rfl, rfl, hall, hheard, Trail.guarded_commitments h.of_lift⟩

theorem Trail.guarded_echo (v : α) (r : Bytes32) {d : Bytes32}
    {r' : Runner (Except Error (List (List Bytes32)))}
    (h : Trail (.start (echoBroadcast (Player.numbered i) (phase ++ " comm") [d]).run t) log r') :
    ∃ c : Fin n → Bytes32, c i = d ∧ Guarded i phase v r c log := by
  rw [echoBroadcast_eq] at h
  rcases h.thenDo_cases with ⟨⟨u, hb⟩, -⟩ | ⟨all, l, l', u, rfl, hb, hrest⟩
  · obtain ⟨u', hb⟩ := hb.of_lift
    exact ⟨fun _ => d, rfl, hb.guarded_commitments⟩
  · obtain ⟨rfl, c, rfl, rfl, hall, hheard, hguarded⟩ := hb.of_commitments v r
    exact ⟨c, rfl, hrest.guarded_digests hguarded hall hheard⟩

theorem Succeeds.of_echo (v : α) (r : Bytes32) {d : Bytes32} {all : List (List Bytes32)}
    (h : Succeeds (echoBroadcast (Player.numbered i) (phase ++ " comm") [d]) t log all t') :
    ∃ c : Fin n → Bytes32, c i = d ∧ all = commitmentLists c ∧ Guarded i phase v r c log ∧
      Ready i phase c log := by
  rw [echoBroadcast_eq] at h
  obtain ⟨all', l, l', u, rfl, hb, hcompare⟩ := h.of_bind
  obtain ⟨rfl, c, rfl, rfl, hall, hheard, hguarded⟩ := hb.of_commitments v r
  obtain ⟨rfl, rfl, hcompared⟩ := hcompare.of_compareViews
  exact ⟨c, rfl, rfl, Trail.guarded_digests hguarded hall hheard hcompare, hcompared.ready hheard⟩

theorem Trail.of_drawing {r' : Runner (Except Error Bytes32)}
    (h : Trail (.start (draw : Interaction Bytes32).run t) log r') : log = [] := by
  rcases h.first with ⟨g, hg, -⟩ | ⟨k, k', g, r₁, rfl, hg, hnext, hrest⟩
  · exact (turns_nil hg).1
  · obtain ⟨rfl, rfl⟩ := turns_nil hg
    cases hnext
    exact hrest.of_done.1

theorem Bound.of_check [LawfulWire α] {openings : List (List (α × Bytes32))} {values : List α}
    (hready : Ready i phase c l) (hopenings : Exchanged i (phase ++ " open") [(v, r)] l' openings)
    (hvalues : checkOpenings i 0 ((commitmentLists c).zip openings) = .ok values) :
    Bound i phase v r c (l ++ l') values := by
  have hlen : (commitmentLists c).length = n := by simp [commitmentLists]
  obtain ⟨hlength, hget⟩ := checkOpenings_zip hlen hopenings.length hvalues
  refine ⟨hlength, ?_, ⟨l, l', rfl, hready, hopenings.sent⟩, fun k hki => ?_⟩
  · obtain ⟨d, ds, w, s, ws, -, hopening, hvalue, -⟩ := hget i
    cases hopening.symm.trans hopenings.own
    exact hvalue
  · obtain ⟨d, ds, w, s, ws, hcommitment, -, hvalue, hmatch⟩ := hget k
    obtain ⟨rfl, -⟩ : c k = d ∧ ds = [] := by simpa [commitmentLists] using hcommitment
    have hopens : Blake3.hash (committedBytes w s k) = c k := eq_of_beq (hmatch.resolve_left hki)
    refine ⟨w, s, hvalue, hopens, fun w' s' hopens' hinj => ?_⟩
    exact committedBytes_inj (hinj (by simp) (by simp) (hopens'.trans hopens.symm))

/-- Whatever comes from others: a party sends its opening only when it is ready to, and the
values that it returns were committed to by then. -/
theorem Trail.guarded [LawfulWire α] {r' : Runner (Except Error (List α))}
    (h : Trail (.start (commitThenOpen (Player.numbered i) phase v).run t) log r') :
    ∃ c : Fin n → Bytes32, c i = commit (committedBytes v (t 0) i) ∧
      Guarded i phase v (t 0) c log ∧
      ∀ values, r'.program = .done (.ok values) → Bound i phase v (t 0) c log values := by
  let own : Bytes32 := commit (committedBytes v (t 0) i)
  -- At each step the party is still in it, and then has not returned, or it is through.
  rcases h.thenDo_cases with ⟨⟨u, hdraw⟩, hne⟩ | ⟨_, l, l', u, rfl, hdraw, h⟩
  · obtain rfl := hdraw.of_drawing
    exact ⟨fun _ => own, rfl, .nil, fun values hr => absurd hr (hne values)⟩
  obtain ⟨rfl, rfl, rfl⟩ := hdraw.of_draw
  rw [List.nil_append]
  rcases h.thenDo_cases with ⟨⟨u, hecho⟩, hne⟩ | ⟨all, l, k, u, rfl, hecho, h⟩
  · obtain ⟨c, hc, hguarded⟩ := hecho.guarded_echo v (t 0)
    exact ⟨c, hc, hguarded, fun values hr => absurd hr (hne values)⟩
  obtain ⟨c, hc, rfl, hguarded, hready⟩ := hecho.of_echo v (t 0)
  refine ⟨c, hc, ?_⟩
  rcases h.thenDo_cases with ⟨⟨u', hopen⟩, hne⟩ | ⟨openings, k, k', u', rfl, hopen, h⟩
  · obtain ⟨u'', hopen⟩ := hopen.of_lift
    exact ⟨hopen.guarded_openings hguarded hready, fun values hr => absurd hr (hne values)⟩
  · obtain ⟨rfl, rfl⟩ := Trail.of_done h
    obtain ⟨-, hopenings⟩ := hopen.of_lift.of_broadcast
    rw [List.append_nil]
    refine ⟨Trail.guarded_openings hguarded hready hopen.of_lift, fun values hr => ?_⟩
    have hvalues : checkOpenings i 0 ((commitmentLists c).zip openings) = .ok values := by
      injection hr
    exact .of_check hready hopenings hvalues

/-- Whatever the other parties do: an honest party sends its opening to nobody before it has
heard one commitment from every other party and, with more than two parties, its own digests
from all of them. If it gets to the end, it returns its own value, and from every other party
the only value that matches what this party had committed to by then. -/
theorem opens_after_commitments [LawfulWire α] (capacity : Option Nat) (honest : Finset (Fin n))
    (phase : String) (value : Fin n → α) (t : Fin n → Tape) {s : Scene n (Except Error (List α))}
    (hs : s.Reached capacity honest (openers phase value) t) {i : Fin n} (hi : i ∈ honest) :
    ∃ c : Fin n → Bytes32, c i = commit (committedBytes (value i) (t i 0) i) ∧
      Guarded i phase (value i) (t i 0) c (s.logs i) ∧
      ∀ values, (s.runners i).program = .done (.ok values) →
        Bound i phase (value i) (t i 0) c (s.logs i) values :=
  Trail.guarded (hs.sound.trail i hi)

/-- Three parties open zeroes; nothing binds the last one. -/
theorem opens_after_commitments_three :
    ∃ (s : Scene 3 (Except Error (List Bytes32))) (c : Fin 3 → Bytes32),
      s.Reached none {0, 1} (openers "zero" fun _ => zeroBytes) (fun _ _ => zeroBytes) ∧
      (0 : Fin 3) ∈ ({0, 1} : Finset (Fin 3)) ∧
      Guarded 0 "zero" zeroBytes zeroBytes c (s.logs 0) ∧
      Bound 0 "zero" zeroBytes zeroBytes c (s.logs 0) [zeroBytes, zeroBytes, zeroBytes] := by
  have hcap : (none : Option Nat) ≠ some 0 := by decide
  let zero : Fin 3 → Bytes32 := fun _ => zeroBytes
  let tape : Fin 3 → Tape := fun _ _ => zeroBytes
  have h0 : (0 : Fin 3) ∈ ({0, 1} : Finset (Fin 3)) := by decide
  obtain ⟨s, hs, hr⟩ := (commitThenOpen_together hcap (by decide) "zero" zero tape).reached
  replace hs := hs.mono (Finset.subset_univ {0, 1})
  obtain ⟨c, -, hguarded, hbound⟩ := opens_after_commitments none {0, 1} "zero" zero tape hs h0
  exact ⟨s, c, hs, h0, hguarded, hbound _ (hr 0)⟩

end AuthShares
