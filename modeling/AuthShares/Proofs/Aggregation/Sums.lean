import AuthShares.Proofs.Aggregation.Cycles
import AuthShares.Proofs.Aggregation.Tree
import Mathlib.Algebra.BigOperators.Ring.Finset

/-!
# Sums of all players

Whatever the topology, every player ends with the sum of the inputs of all players, and
all messages have been read. So calls can follow each other, and runs of a sequence of
calls all come to the same end, also while some players are ahead of others.
-/

set_option autoImplicit false

namespace AuthShares

variable {n : Nat} {capacity : Option Nat} {T : Type} [MacElement T] [Modular T]
  {q : Nat → Nat} {m : Nat} {x : Fin n → List T} {lengths : List (Option Nat)}

theorem Faithful.checkLengths (f : Faithful T lengths q m x) (hlen : lengths.length ≤ m) :
    Summation.checkLengths T lengths = .ok () := by
  have hdecl : ∀ len ∈ lengths, ∃ k, declaredLength (Element.size T) len = .ok k := by
    intro len hl
    obtain ⟨k, hk, rfl⟩ := List.mem_iff_getElem.mp hl
    have hs := (f.sendable k (by omega) 0 Modular.zero_canonical).declared
    rw [List.getD_eq_getElem _ _ hk] at hs
    exact ⟨_, hs⟩
  clear f hlen
  induction lengths with
  | nil => rfl
  | cons len rest ih =>
    obtain ⟨k, hk⟩ := hdecl len (by simp)
    rw [Summation.checkLengths, hk]
    exact ih fun l hl => hdecl l (by simp [hl])

namespace Summation

theorem absorb_others (f : Faithful T lengths q m x) {s : Fin n → Summation T}
    (hs : ∀ i, Shows q m x (s i).values fun _ => {i}) (packed : Bytes) (i : Fin n) :
    ∃ u : Summation T, (absorbEach .add lengths ((Player.numbered i).others.map
        (byNumber fun j => Message.encodeRange lengths 0 m (s j).values)) :
        Action (Summation T) Unit).run.run { s i with packed } = .done (.ok (), u) ∧
      Shows q m x u.values fun _ => Finset.univ := by
  let values : Nat → List T := fun a => if h : a < n then (s ⟨a, h⟩).values else []
  let single : Nat → Finset (Fin n) := fun a => Finset.univ.filter fun j => j.val = a
  have hothers : ∀ a ∈ (Player.numbered i).others, a < n ∧ a ≠ i :=
    fun a ha => Player.mem_others.mp ha
  have hmem : ∀ (a : Nat) (j : Fin n), j ∈ single a ↔ j.val = a := fun a j => by simp [single]
  have hvalues : ∀ a ∈ (Player.numbered i).others, Shows q m x (values a) fun _ => single a := by
    intro a ha
    obtain ⟨han, -⟩ := hothers a ha
    have hsingle : single a = {⟨a, han⟩} := by
      ext j
      rw [hmem, Finset.mem_singleton, Fin.ext_iff]
    simp only [values, dif_pos han, hsingle]
    exact hs ⟨a, han⟩
  have hself : ∀ a ∈ (Player.numbered i).others, Disjoint {i} (single a) := by
    intro a ha
    rw [Finset.disjoint_singleton_left, hmem]
    exact fun h => (hothers a ha).2 h.symm
  have hpair : ∀ a b, a ≠ b → Disjoint (single a) (single b) := by
    intro a b hab
    rw [Finset.disjoint_left]
    intro j hj hj'
    exact hab (((hmem a j).mp hj).symm.trans ((hmem b j).mp hj'))
  obtain ⟨u, hu, hus⟩ := run_absorbEach f (s := { s i with packed }) (Player.numbered i).others
    values single (hs i) hvalues hself ((Player.others_nodup _).imp (hpair _ _))
  have hlist : (Player.numbered i).others.map
      (byNumber fun j => Message.encodeRange lengths 0 m (s j).values) =
      (Player.numbered i).others.map fun a => Message.encodeRange lengths 0 m (values a) := by
    refine List.map_congr_left fun a ha => ?_
    obtain ⟨han, -⟩ := hothers a ha
    simp only [byNumber, dif_pos han, values]
  refine ⟨u, hlist ▸ hu, hus.congr fun _ _ => ?_⟩
  ext j
  rw [mem_foldl_union]
  simp only [Finset.mem_univ, true_iff, Finset.mem_singleton, hmem]
  by_cases hj : j = i
  · exact .inl hj
  · exact .inr ⟨j, Player.mem_others.mpr ⟨j.isLt, fun h => hj (Fin.ext h)⟩, rfl⟩

theorem direct_accord (hcap : capacity ≠ some 0) (f : Faithful T lengths q m x)
    (hlengths : checkLengths T lengths = .ok ()) {s : Fin n → Summation T}
    (hs : ∀ i, Shows q m x (s i).values fun _ => {i}) (t : Fin n → Tape) :
    ∃ s', Accord capacity (fun i => direct (Player.numbered i) lengths) s t (fun _ => ()) s' t ∧
      ∀ i, Shows q m x (s' i).values fun _ => Finset.univ := by
  have hl : ∀ i, (s i).values.length = m := fun i => (hs i).length
  let packet : Fin n → Bytes := fun i => Message.encodeRange lengths 0 m (s i).values
  let sent : Fin n → Summation T := fun i => { s i with packed := packet i }
  choose s' hrun hs' using fun i => absorb_others f hs (packet i) i
  refine ⟨s', ?_, hs'⟩
  have hcheck : ∀ i, (Action.ofReadResult (checkLengths T lengths) :
      Action (Summation T) Unit).run.run (s i) = .done (.ok (), s i) := by
    rw [hlengths]
    exact fun _ => rfl
  refine Accord.bind_done hcheck ?_
  refine Accord.bind_done (fun i => run_packAll lengths (s i)) ?_
  simp only [hl]
  refine World.together_everyone hcap packet _ (fun _ => .ofSize n)
    (fun i => .ofSize (Player.numbered i).others.length) (fun _ => openingPhase)
    (fun _ => openingPhase)
    (fun i => Action.after (sent i) fun _ => do
      let messages ← Link.gatherBytes openingPhase (Player.numbered i).others
      absorbEach .add lengths messages)
    (fun _ _ => .ok ())
    (fun i => Action.after (sent i) fun messages =>
      absorbEach .add lengths messages) _ (fun i => ?_)
    (fun i => Action.run_gatherBytes _ _ _ (sent i)) (fun _ _ _ => rfl) hrun t
  rw [Action.run_link]
  rfl

end Summation

namespace Aggregator

open Summation

theorem effectiveFan_pos (fan : Nat) (hn : 0 < n) : 0 < effectiveFan fan n := by
  unfold effectiveFan
  split <;> omega

theorem two_le_effectiveFan (fan : Nat) (hn : 1 < n) : 2 ≤ effectiveFan fan n := by
  unfold effectiveFan
  split <;> omega

theorem length_usedLengths_le (m : Nat) (lengths : List (Option Nat)) :
    (usedLengths m lengths).length ≤ m := by
  unfold usedLengths
  split
  · omega
  · exact Nat.zero_le m

/-- Up the tree the root gets the sum of all inputs. -/
theorem climb_accord (hcap : capacity ≠ some 0) (hpos : 0 < n) (hn : 2 * n < wordRange)
    (a : Aggregator) (f : Faithful T lengths q m x) {s : Fin n → Summation T}
    (hs : ∀ i, Shows q m x (s i).values fun _ => {i}) (t : Fin n → Tape) :
    ∃ (s' : Fin n → Summation T) (W : Fin n → Finset (Fin n)), Accord capacity
        (fun i => reduceUp (Player.numbered i) (a.root % n) lengths
          (treeRounds (min (effectiveFan a.fanIn n) n) n)) s t (fun _ => ()) s' t ∧
      (∀ i, Shows q m x (s' i).values fun _ => W i) ∧
      W (Player.place (Nat.mod_lt a.root hpos) 0) = Finset.univ := by
  have hroot : a.root % n < n := Nat.mod_lt _ hpos
  have hfan : 2 ≤ min (effectiveFan a.fanIn n) n ∨ n = 1 := by
    by_cases hone : n = 1
    · exact .inr hone
    · have := two_le_effectiveFan a.fanIn (n := n) (by omega)
      omega
  obtain ⟨u, hu, hus⟩ := reduceUp_accord hcap f hroot hn hfan hpos le_rfl
    (climbed_input hroot hn hs) t
  choose W hW hroots using hus.shows
  have hzero : (Player.numbered (Player.place hroot 0)).relative (a.root % n) = 0 :=
    Player.relative_place hroot hn hpos
  refine ⟨u, W, hu, hW, ?_⟩
  rw [hroots _ (by omega), hzero]
  ext j
  simp [mem_owned]

theorem tree_accord (hcap : capacity ≠ some 0) (hpos : 0 < n) (hn : 2 * n < wordRange)
    (a : Aggregator) (f : Faithful T lengths q m x) {s : Fin n → Summation T}
    (hs : ∀ i, Shows q m x (s i).values fun _ => {i}) (t : Fin n → Tape) :
    ∃ s', Accord capacity (fun i => do
          reduceUp (Player.numbered i) (a.root % n) lengths
            (treeRounds (min (effectiveFan a.fanIn n) n) n)
          tellDown (Player.numbered i) (a.root % n) (effectiveFan a.fanOut n) lengths) s t
        (fun _ => ()) s' t ∧
      ∀ i, Shows q m x (s' i).values fun _ => Finset.univ := by
  obtain ⟨u, W, hu, hW, hall⟩ := climb_accord hcap hpos hn a f hs t
  obtain ⟨v, hv, hvs⟩ := tellDown_accord hcap f (Nat.mod_lt _ hpos) hn
    (effectiveFan_pos a.fanOut hpos) (two_le_effectiveFan a.fanOut) hW hall t
  exact ⟨v, hu.bind hv, hvs⟩

/-- Every topology gives everyone the sum of all inputs. -/
theorem exchange_accord (hcap : capacity ≠ some 0) (hpos : 0 < n) (hn : 2 * n < wordRange)
    (a : Aggregator) (f : Faithful T (usedLengths m lengths) q m x) {s : Fin n → Summation T}
    (hs : ∀ i, Shows q m x (s i).values fun _ => {i}) (t : Fin n → Tape) :
    ∃ s', Accord capacity (fun i => exchange a (Player.numbered i) lengths) s t
        (fun _ => ()) s' t ∧
      ∀ i, Shows q m x (s' i).values fun _ => Finset.univ := by
  have hlen : ∀ i, (s i).values.length = m := fun i => (hs i).length
  have hcheck := f.checkLengths (length_usedLengths_le m lengths)
  cases htop : a.topology n m with
  | tree =>
    obtain ⟨s', hacc, hs'⟩ := tree_accord hcap hpos hn a f hs t
    refine ⟨s', Accord.bind_done (fun i => Action.run_get (s i)) ?_, hs'⟩
    simp only [hlen, hcheck, Player.numbered_players, htop]
    exact hacc
  | ring =>
    obtain ⟨s', hacc, hs'⟩ := ring_accord hcap f hs t
    refine ⟨s', Accord.bind_done (fun i => Action.run_get (s i)) ?_, hs'⟩
    simp only [hlen, hcheck, Player.numbered_players, htop]
    exact hacc
  | rotatedStar =>
    obtain ⟨s', hacc, hs'⟩ := star_accord hcap f hs t
    refine ⟨s', Accord.bind_done (fun i => Action.run_get (s i)) ?_, hs'⟩
    simp only [hlen, hcheck, Player.numbered_players, htop]
    exact hacc

section Runs

variable {T : Type} [MacElement T] {x : Fin n → List T} {lengths : List (Option Nat)}
  {a : Aggregator} {packed : Fin n → Bytes} {s' : Fin n → Summation T} {t : Fin n → Tape}

/-- A sum is what the exchange of messages leaves. The aggregator is kept but for the message
packed last. -/
theorem sumEach_of_exchange (h : Accord capacity
      (fun i => exchange { a with packed := packed i } (Player.numbered i) lengths)
      (fun i => ⟨packed i, x i⟩) t (fun _ => ()) s' t) :
    World.Together capacity
      (fun i => (sumEach (Player.numbered i) lengths (x i)).run { a with packed := packed i }) t
      (fun i => ((.ok (), (s' i).values), { a with packed := (s' i).packed })) t :=
  World.Together.bind h (World.Together.pure _ t)

theorem sum_of_exchange (h : Accord capacity
      (fun i => exchange { a with packed := packed i } (Player.numbered i) lengths)
      (fun i => ⟨packed i, x i⟩) t (fun _ => ()) s' t) :
    World.Together capacity (fun i => ((sum (Player.numbered i) lengths (x i)).run.run
        { a with packed := packed i } : Protocol (Except Error (List T) × Aggregator))) t
      (fun i => (.ok (s' i).values, { a with packed := (s' i).packed })) t :=
  (sumEach_of_exchange h).bind (World.Together.pure _ t)

end Runs

theorem sumEach_together (hcap : capacity ≠ some 0) (hpos : 0 < n) (hn : 2 * n < wordRange)
    (a : Aggregator) (f : Faithful T (usedLengths m lengths) q m x) (hlen : ∀ i, (x i).length = m)
    (hcan : ∀ i, ∀ y ∈ x i, Element.isCanonical y) (packed : Fin n → Bytes) (t : Fin n → Tape) :
    ∃ (v : Fin n → List T) (packed' : Fin n → Bytes), World.Together capacity
        (fun i => (sumEach (Player.numbered i) lengths (x i)).run { a with packed := packed i }) t
        (fun i => ((.ok (), v i), { a with packed := packed' i })) t ∧
      ∀ i, Shows q m x (v i) fun _ => Finset.univ := by
  obtain ⟨s', hacc, hs'⟩ := exchange_accord hcap hpos hn a f
    (s := fun i => ⟨packed i, x i⟩) (Shows.input hlen hcan) t
  exact ⟨_, _, sumEach_of_exchange hacc, hs'⟩

theorem sum_together (hcap : capacity ≠ some 0) (hpos : 0 < n) (hn : 2 * n < wordRange)
    (a : Aggregator) (f : Faithful T (usedLengths m lengths) q m x) (hlen : ∀ i, (x i).length = m)
    (hcan : ∀ i, ∀ y ∈ x i, Element.isCanonical y) (packed : Fin n → Bytes) (t : Fin n → Tape) :
    ∃ (v : Fin n → List T) (packed' : Fin n → Bytes), World.Together capacity
        (fun i => ((sum (Player.numbered i) lengths (x i)).run.run
          { a with packed := packed i } : Protocol (Except Error (List T) × Aggregator))) t
        (fun i => (.ok (v i), { a with packed := packed' i })) t ∧
      ∀ i, Shows q m x (v i) fun _ => Finset.univ := by
  obtain ⟨s', hacc, hs'⟩ := exchange_accord hcap hpos hn a f
    (s := fun i => ⟨packed i, x i⟩) (Shows.input hlen hcan) t
  exact ⟨_, _, sum_of_exchange hacc, hs'⟩

end Aggregator

theorem faithful_full (hfull : ∀ len ∈ lengths, len = none) (m : Nat) (x : Fin n → List T) :
    Faithful T lengths (fun _ => Modular.modulus T) m x := by
  have hnone : ∀ k, lengths.getD k none = none := by
    intro k
    by_cases hk : k < lengths.length
    · rw [List.getD_eq_getElem _ _ hk]
      exact hfull _ (List.getElem_mem hk)
    · exact List.getD_eq_default _ _ (by omega)
  refine ⟨fun _ => dvd_rfl, fun k _ y hy => ?_, fun k _ y hy _ _ => ?_⟩
  · rw [hnone k]
    refine ⟨?_, ?_⟩
    · show Except.ok (Element.size T) = .ok (Element.toBytes y).length
      rw [Modular.length_toBytes]
    · show Element.isCanonical (Element.ofBytes (Element.toBytes y))
      rw [Modular.ofBytes_toBytes y hy]
      exact hy
  · rw [hnone k]
    show Modular.residue _ (Element.ofBytes (Element.toBytes y)) = _
    rw [Modular.ofBytes_toBytes y hy]

theorem faithful_used (hfull : ∀ len ∈ lengths, len = none) (m : Nat) (x : Fin n → List T) :
    Faithful T (Aggregator.usedLengths m lengths) (fun _ => Modular.modulus T) m x := by
  refine faithful_full (fun len hlen => ?_) m x
  unfold Aggregator.usedLengths at hlen
  split at hlen
  · exact hfull len hlen
  · cases hlen

def columnSums (m : Nat) (x : Fin n → List T) : List T :=
  (List.range m).map fun k => Modular.ofNat (∑ j, Modular.rep ((x j).getD k 0))

theorem eq_columnSums {v : List T}
    (h : Shows (fun _ => Modular.modulus T) m x v fun _ => Finset.univ) : v = columnSums m x := by
  refine List.ext_getElem (by simp [columnSums, h.length]) fun k hk hk' => ?_
  have hkm : k < m := h.length ▸ hk
  have hres := h.residue k hkm
  have hcan := h.canonical k
  rw [List.getD_eq_getElem _ _ hk] at hres hcan
  refine Modular.eq_of_residue hcan (by simp [columnSums, Modular.ofNat_canonical]) ?_
  rw [hres]
  simp only [columnSums, List.getElem_map, List.getElem_range, Modular.residue_ofNat dvd_rfl,
    Nat.cast_sum]
  rfl

end AuthShares
