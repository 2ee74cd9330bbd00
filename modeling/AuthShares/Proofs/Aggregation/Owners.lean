import AuthShares.Proofs.Aggregation.Lengths
import AuthShares.Proofs.Aggregation.Sums

/-!
# Who keeps a sum in full

The player at which a sum is completed tells it to all others, but keeps its own copy as it
is. If a length is declared for it, what the others get is cut to that length, once and
for all, however far it travels. So all players agree on a sum just if it fits into
its declared length where it is completed.
-/

set_option autoImplicit false

namespace AuthShares

variable {n : Nat} {capacity : Option Nat}

/-- In what order the parties get a block that its owner sends on: a party gets it in the
round of its rank, from one that has got it before. -/
structure Spreads (first : Nat) (step : Nat → Fin n → Step) (ahead : Nat → Nat)
    (rank : Fin n → Nat → Nat) : Prop where
  rank_lt (i : Fin n) (b : Nat) : rank i b < n
  matched (r : Nat) (hr : r + 1 < n) : Matched (step (first + r)) (ahead (first + r))
  expects (r : Nat) (hr : r + 1 < n) (i : Fin n) {b : Nat} (hb : b < n) :
    b = (step (first + r) i).receiveBlock ↔ rank i b = r + 1
  behind (r : Nat) (hr : r + 1 < n) (i : Fin n) {b : Nat} (hb : b < n) : rank i b = r + 1 →
    rank (onward i (n - ahead (first + r))) b ≤ r

theorem ringGather_spreads : Spreads 0 (ringGatherStep (n := n)) (fun _ => 1)
    fun i b => distance b (onward i 1) where
  rank_lt i b := distance_lt b _
  matched r hr := by
    rw [Nat.zero_add]
    exact (ringGather_passes hr).toMatched
  expects r hr i b hb := by
    rw [Nat.zero_add]
    exact ringGather_expects hr i hb
  behind _ _ _ _ hb h := ringGather_behind hb h

theorem starGather_spreads : Spreads 1 (starGatherStep (n := n)) id
    fun i b => distance b i where
  rank_lt i b := distance_lt b i
  matched r hr := (starGather_passes (by omega) (by omega)).toMatched
  expects r hr i b hb := by
    rw [starGather_expects (by omega) i hb, Nat.add_comm]
  behind r hr i b hb h := by
    rw [Nat.add_comm] at h
    exact (starGather_behind (by omega) (by omega) hb h).trans_le (Nat.zero_le r)

def Aggregator.owner (a : Aggregator) (players size k : Nat) : Nat :=
  match a.topology players size with
  | .tree => a.root % players
  | .ring => (Summation.blockOf players size k + players - 1) % players
  | .rotatedStar => Summation.blockOf players size k

theorem Aggregator.owner_lt (a : Aggregator) {players : Nat} (h : 0 < players) (size k : Nat) :
    a.owner players size k < players := by
  unfold owner
  split
  · exact Nat.mod_lt _ h
  · exact Nat.mod_lt _ h
  · exact Summation.blockOf_lt h size k

theorem ring_rank_eq_zero_iff {b : Nat} (hb : b < n) (i : Fin n) :
    distance b (onward i 1) = 0 ↔ i.val = (b + n - 1) % n := by
  have hi := i.isLt
  rw [distance_eq_iff hb (by omega), Nat.sub_zero, Nat.add_mod_right,
    Nat.mod_eq_of_lt (onward i 1).isLt, val_onward (by omega), mod_of_lt_two_mul (by omega)]
  split <;> split <;> omega

theorem star_rank_eq_zero_iff {b : Nat} (hb : b < n) (i : Fin n) :
    distance b i = 0 ↔ i.val = b := by
  have hi := i.isLt
  rw [distance_eq hb]
  split <;> omega

open Element Modular

variable {T : Type} [MacElement T] [Written T] {m : Nat} {lengths : List (Option Nat)}

namespace Summation

/-- Values of which every one is known in full to those that a rank of zero stands for, and to
those of a rank up to `r` as it was sent; all others are as before. -/
structure Spread (lengths : List (Option Nat)) (m : Nat) (rank : Fin n → Nat → Nat) (w : Nat → T)
    (before : Fin n → List T) (r : Nat) (s : Fin n → Summation T) : Prop where
  length (i : Fin n) : (s i).values.length = m
  eq (i : Fin n) (k : Nat) (hk : k < m) : (s i).values.getD k 0 =
    if rank i (blockOf n m k) = 0 then w k
    else if rank i (blockOf n m k) ≤ r then arrival (lengths.getD k none) (w k)
    else (before i).getD k 0

variable {first : Nat} {step : Nat → Fin n → Step} {ahead : Nat → Nat} {rank : Fin n → Nat → Nat}
  {w : Nat → T} {before : Fin n → List T}

/-- In every round those of the next rank get the value, from parties that have it. -/
theorem followStep_spread (hcap : capacity ≠ some 0) (hfits : Fits T lengths)
    (h : Spreads first step ahead rank) (hbefore : ∀ i k, isCanonical ((before i).getD k 0))
    (hw : ∀ k, isCanonical (w k)) {r : Nat} (hr : r + 1 < n) {s : Fin n → Summation T}
    (hs : Spread lengths m rank w before r s) (t : Fin n → Tape) :
    ∃ s', Accord capacity (fun i => followStep (Player.numbered i) .replace lengths
        (step (first + r) i)) s t (fun _ => ()) s' t ∧
      Spread lengths m rank w before (r + 1) s' := by
  have hcan : ∀ i, ∀ k < m, isCanonical ((s i).values.getD k 0) := by
    intro i k hk
    rw [hs.eq i k hk]
    split
    · exact hw k
    · split
      · exact arrival_canonical (hfits.widthAt_le k) (hw k)
      · exact hbefore i k
  obtain ⟨s', hacc, hs'⟩ := followStep_values .replace hcap (h.matched r hr)
    hs.length (fun i k hk => sendable (hfits.widthAt_le k) (hcan i k hk)) t
  refine ⟨s', hacc, fun i => (hs' i).1, fun i k hk => ?_⟩
  have hb := blockOf_lt i.pos m k
  rw [(hs' i).2 k hk, if_congr (h.expects r hr i hb) rfl rfl]
  by_cases hrank : rank i (blockOf n m k) = r + 1
  · have hbehind := h.behind r hr i hb hrank
    rw [if_pos hrank, if_neg (by omega), if_pos hrank.le, Combine.apply, hs.eq _ k hk,
      if_pos hbehind]
    split
    · rfl
    · exact arrival_arrival (hfits.widthAt_le k) _
  · rw [if_neg hrank, hs.eq i k hk]
    exact if_congr Iff.rfl rfl (if_congr (by omega) rfl rfl)

/-- In the end all but the owners have the values as they were sent. -/
theorem follow_spread (hcap : capacity ≠ some 0) (hfits : Fits T lengths)
    (h : Spreads first step ahead rank) {s : Fin n → Summation T}
    (hlen : ∀ i, (s i).values.length = m)
    (hcan : ∀ i k, isCanonical ((s i).values.getD k 0)) (hw : ∀ k, isCanonical (w k))
    (hown : ∀ i, ∀ k < m, rank i (blockOf n m k) = 0 → (s i).values.getD k 0 = w k)
    (t : Fin n → Tape) :
    ∃ s', Accord capacity (fun i => follow (Player.numbered i) .replace lengths
        ((List.range' first (n - 1)).map fun r => step r i)) s t (fun _ => ()) s' t ∧
      ∀ i, (s' i).values.length = m ∧ ∀ k < m, (s' i).values.getD k 0 =
        if rank i (blockOf n m k) = 0 then w k else arrival (lengths.getD k none) (w k) := by
  have hstart : Spread lengths m rank w (fun i => (s i).values) (first - first) s := by
    refine ⟨hlen, fun i k hk => ?_⟩
    split
    · rename_i hzero
      exact hown i k hk hzero
    · rw [if_neg (by omega)]
  have hround : ∀ r, first ≤ r → r < first + (n - 1) → ∀ u,
      Spread lengths m rank w (fun i => (s i).values) (r - first) u → ∀ t, ∃ v, Accord capacity
        (fun i => followStep (Player.numbered i) .replace lengths (step r i)) u t (fun _ => ()) v t ∧
        Spread lengths m rank w (fun i => (s i).values) (r + 1 - first) v := by
    intro r hr hlt u hu t
    obtain ⟨d, rfl⟩ : ∃ d, r = first + d := ⟨r - first, by omega⟩
    rw [Nat.add_sub_cancel_left] at hu
    rw [show first + d + 1 - first = d + 1 by omega]
    exact followStep_spread hcap hfits h hcan hw (by omega) hu t
  obtain ⟨s', hacc, hs'⟩ := follow_run first (n - 1) hround hstart t
  refine ⟨s', hacc, fun i => ⟨hs'.length i, fun k hk => ?_⟩⟩
  have hrank := h.rank_lt i (blockOf n m k)
  rw [hs'.eq i k hk]
  exact if_congr Iff.rfl rfl (if_pos (by omega))

end Summation

/-- Everyone has the value at a position as its owner sent it; only the owner has it in full. -/
structure Told (lengths : List (Option Nat)) (m : Nat) (owner : Nat → Nat) (v : Fin n → List T) :
    Prop where
  length (i : Fin n) : (v i).length = m
  canonical (i : Fin n) (k : Nat) : isCanonical ((v i).getD k 0)
  eq (i o : Fin n) (k : Nat) (hk : k < m) : o.val = owner k → i ≠ o →
    (v i).getD k 0 = arrival (lengths.getD k none) ((v o).getD k 0)

theorem Told.of_eq (hfits : Fits T lengths) {owner : Nat → Nat} {v : Fin n → List T} {w : Nat → T}
    (hw : ∀ k, isCanonical (w k)) (h : ∀ i, (v i).length = m ∧ ∀ k < m, (v i).getD k 0 =
      if i.val = owner k then w k else arrival (lengths.getD k none) (w k)) :
    Told lengths m owner v where
  length i := (h i).1
  canonical i k := by
    by_cases hk : k < m
    · rw [(h i).2 k hk]
      split
      · exact hw k
      · exact arrival_canonical (hfits.widthAt_le k) (hw k)
    · rw [List.getD_eq_default _ _ (by rw [(h i).1]; omega)]
      exact zero_canonical
  eq i o k hk ho hio := by
    rw [(h i).2 k hk, (h o).2 k hk, if_pos ho, if_neg fun hi => hio (Fin.ext (hi.trans ho.symm))]

namespace Aggregator

open Summation

variable {s : Fin n → Summation T}

/-- In rounds that spread the blocks, the owner of a value tells it to all others. -/
theorem follow_told (hcap : capacity ≠ some 0) (hfits : Fits T lengths) {first : Nat}
    {step : Nat → Fin n → Step} {ahead : Nat → Nat} {rank : Fin n → Nat → Nat}
    (h : Spreads first step ahead rank) (owner : Nat → Nat) (howner : ∀ k, owner k < n)
    (hrank : ∀ (i : Fin n) k, rank i (blockOf n m k) = 0 ↔ i.val = owner k)
    (hlen : ∀ i, (s i).values.length = m) (hcan : ∀ i k, isCanonical ((s i).values.getD k 0))
    (t : Fin n → Tape) :
    ∃ s', Accord capacity (fun i => follow (Player.numbered i) .replace lengths
        ((List.range' first (n - 1)).map fun r => step r i)) s t (fun _ => ()) s' t ∧
      Told lengths m owner fun i => (s' i).values := by
  let w : Nat → T := fun k => (s ⟨owner k, howner k⟩).values.getD k 0
  have hw : ∀ k, isCanonical (w k) := fun k => hcan _ k
  have hown : ∀ i, ∀ k < m, rank i (blockOf n m k) = 0 → (s i).values.getD k 0 = w k := by
    intro i k _ hzero
    have hi : i = ⟨owner k, howner k⟩ := Fin.ext ((hrank i k).mp hzero)
    rw [hi]
  obtain ⟨v, hv, hvs⟩ := follow_spread hcap hfits h hlen hcan hw hown t
  refine ⟨v, hv, Told.of_eq hfits hw fun i => ?_⟩
  simp only [← hrank]
  exact hvs i

theorem ring_told (hcap : capacity ≠ some 0) (hpos : 0 < n) (hfits : Fits T lengths)
    (hlen : ∀ i, (s i).values.length = m)
    (hcan : ∀ i, ∀ y ∈ (s i).values, isCanonical y) (t : Fin n → Tape) :
    ∃ s', Accord capacity (fun i => do
        follow (Player.numbered i) .add lengths (ringReduce i n)
        follow (Player.numbered i) .replace lengths (ringGather i n)) s t (fun _ => ()) s' t ∧
      Told lengths m (fun k => (blockOf n m k + n - 1) % n) fun i => (s' i).values := by
  obtain ⟨u, hu, hus⟩ := ringReduce_accord hcap (hfits.faithful m _) (Shows.input hlen hcan) t
  obtain ⟨v, hv, htold⟩ := follow_told hcap hfits ringGather_spreads
    (fun k => (blockOf n m k + n - 1) % n) (fun k => Nat.mod_lt _ hpos)
    (fun i k => ring_rank_eq_zero_iff (blockOf_lt hpos m k) i) (fun i => (hus i).length)
    (fun i => (hus i).canonical) t
  simp only [ringGather_eq]
  exact ⟨v, hu.bind hv, htold⟩

theorem star_told (hcap : capacity ≠ some 0) (hpos : 0 < n) (hfits : Fits T lengths)
    (hlen : ∀ i, (s i).values.length = m)
    (hcan : ∀ i, ∀ y ∈ (s i).values, isCanonical y) (t : Fin n → Tape) :
    ∃ s', Accord capacity (fun i => do
        follow (Player.numbered i) .add lengths (starReduce i n)
        follow (Player.numbered i) .replace lengths (starGather i n)) s t (fun _ => ()) s' t ∧
      Told lengths m (blockOf n m) fun i => (s' i).values := by
  obtain ⟨u, hu, hus⟩ := starReduce_accord hcap (hfits.faithful m _) (Shows.input hlen hcan) t
  obtain ⟨v, hv, htold⟩ := follow_told hcap hfits starGather_spreads (blockOf n m)
    (blockOf_lt hpos m) (fun i k => star_rank_eq_zero_iff (blockOf_lt hpos m k) i)
    (fun i => (hus i).length) (fun i => (hus i).canonical) t
  simp only [starGather_eq]
  exact ⟨v, hu.bind hv, htold⟩

theorem tree_told (hcap : capacity ≠ some 0) (hpos : 0 < n) (hn : 2 * n < wordRange)
    (a : Aggregator) (hfits : Fits T lengths) (hlen : ∀ i, (s i).values.length = m)
    (hcan : ∀ i, ∀ y ∈ (s i).values, isCanonical y) (t : Fin n → Tape) :
    ∃ s', Accord capacity (fun i => do
          reduceUp (Player.numbered i) (a.root % n) lengths
            (treeRounds (min (effectiveFan a.fanIn n) n) n)
          tellDown (Player.numbered i) (a.root % n) (effectiveFan a.fanOut n) lengths) s t
        (fun _ => ()) s' t ∧
      Told lengths m (fun _ => a.root % n) fun i => (s' i).values := by
  have hroot : a.root % n < n := Nat.mod_lt _ hpos
  obtain ⟨u, W, hu, hus, -⟩ := climb_accord hcap hpos hn a (hfits.faithful m _)
    (Shows.input hlen hcan) t
  have hplace : (Player.place hroot 0).val = a.root % n := Nat.mod_mod _ _
  have hfirst : ∀ i : Fin n, (Player.numbered i).relative (a.root % n) = 0 ↔
      i.val = a.root % n := by
    intro i
    have hi := i.isLt
    rw [Player.relative_numbered hroot hn]
    split <;> omega
  choose zs hrun hzs hget using fun i => run_absorbAll_values .replace
    (hus i).length (hus (Player.place hroot 0)).length
    fun k _ => sendable (hfits.widthAt_le k) ((hus (Player.place hroot 0)).canonical k)
  have htell := tellDown_run hcap hroot hn (effectiveFan_pos a.fanOut hpos)
    (two_le_effectiveFan a.fanOut) (fun i => (hus i).length) hrun t
  refine ⟨_, hu.bind htell, Told.of_eq hfits (hus (Player.place hroot 0)).canonical fun i => ?_⟩
  by_cases hi : i.val = a.root % n
  · rw [if_pos ((hfirst i).mpr hi)]
    refine ⟨(hus i).length, fun k _ => ?_⟩
    rw [if_pos hi, show i = Player.place hroot 0 from Fin.ext (hi.trans hplace.symm)]
  · rw [if_neg (mt (hfirst i).mp hi)]
    refine ⟨hzs i, fun k hk => ?_⟩
    rw [if_neg hi]
    exact hget i k hk

/-- Whatever the topology, everyone is told the sums by those that complete them. -/
theorem exchange_told (hcap : capacity ≠ some 0) (hpos : 0 < n) (hn : 2 * n < wordRange)
    (a : Aggregator) (hfits : Fits T (usedLengths m lengths))
    (hlen : ∀ i, (s i).values.length = m)
    (hcan : ∀ i, ∀ y ∈ (s i).values, isCanonical y) (t : Fin n → Tape) :
    ∃ s', Accord capacity (fun i => exchange a (Player.numbered i) lengths) s t
        (fun _ => ()) s' t ∧
      Told (usedLengths m lengths) m (a.owner n m) fun i => (s' i).values := by
  have hcheck := Summation.checkLengths_eq_ok_iff.mpr hfits
  cases htop : a.topology n m with
  | tree =>
    have howner : a.owner n m = fun _ => a.root % n := by
      funext k
      simp only [owner, htop]
    obtain ⟨s', hacc, hs'⟩ := tree_told hcap hpos hn a hfits hlen hcan t
    refine ⟨s', Accord.bind_done (fun i => Action.run_get (s i)) ?_, ?_⟩
    · simp only [hlen, hcheck, Player.numbered_players, htop]
      exact hacc
    · rwa [howner]
  | ring =>
    have howner : a.owner n m = fun k => (blockOf n m k + n - 1) % n := by
      funext k
      simp only [owner, htop]
    obtain ⟨s', hacc, hs'⟩ := ring_told hcap hpos hfits hlen hcan t
    refine ⟨s', Accord.bind_done (fun i => Action.run_get (s i)) ?_, ?_⟩
    · simp only [hlen, hcheck, Player.numbered_players, htop]
      exact hacc
    · rwa [howner]
  | rotatedStar =>
    have howner : a.owner n m = blockOf n m := by
      funext k
      simp only [owner, htop]
    obtain ⟨s', hacc, hs'⟩ := star_told hcap hpos hfits hlen hcan t
    refine ⟨s', Accord.bind_done (fun i => Action.run_get (s i)) ?_, ?_⟩
    · simp only [hlen, hcheck, Player.numbered_players, htop]
      exact hacc
    · rwa [howner]

theorem sum_told (hcap : capacity ≠ some 0) (hpos : 0 < n) (hn : 2 * n < wordRange)
    (a : Aggregator) (hfits : Fits T (usedLengths m lengths)) {x : Fin n → List T}
    (hlen : ∀ i, (x i).length = m) (hcan : ∀ i, ∀ y ∈ x i, isCanonical y)
    (packed : Fin n → Bytes) (t : Fin n → Tape) :
    ∃ (v : Fin n → List T) (packed' : Fin n → Bytes), World.Together capacity
        (fun i => ((sum (Player.numbered i) lengths (x i)).run.run
          { a with packed := packed i } : Protocol (Except Error (List T) × Aggregator))) t
        (fun i => (.ok (v i), { a with packed := packed' i })) t ∧
      Told (usedLengths m lengths) m (a.owner n m) v := by
  obtain ⟨s', hacc, hs'⟩ := exchange_told hcap hpos hn a hfits
    (s := fun i => ⟨packed i, x i⟩) hlen hcan t
  exact ⟨_, _, sum_of_exchange hacc, hs'⟩

end Aggregator

/-- Players that were told values agree on them just if every one fits into its declared length
at its owner, or if there is nobody else. -/
theorem Told.agree_iff (hfits : Fits T lengths) {owner : Nat → Nat} (howner : ∀ k, owner k < n)
    {v : Fin n → List T} (h : Told lengths m owner v) :
    (∀ i j, v i = v j) ↔ n = 1 ∨ ∀ k < m, ∀ o : Fin n, o.val = owner k →
      rep ((v o).getD k 0) < 256 ^ widthAt T lengths k := by
  constructor
  · intro hagree
    refine or_iff_not_imp_left.mpr fun hone k hk o ho => ?_
    obtain ⟨i, hio⟩ : ∃ i : Fin n, i ≠ o :=
      ⟨onward o 1, onward_ne (by omega) (by have := o.isLt; omega) o⟩
    have heq := h.eq i o k hk ho hio
    rw [hagree i o] at heq
    rw [← byteRange_eq_pow, heq]
    exact (rep_arrival (hfits.widthAt_le k) _).trans_lt (Nat.mod_lt _ (byteRange_pos _))
  · rintro (rfl | hfit) i j
    · rw [Subsingleton.elim i j]
    · have hall : ∀ (i : Fin n) k (hk : k < m),
          (v i).getD k 0 = (v ⟨owner k, howner k⟩).getD k 0 := by
        intro i k hk
        by_cases hi : i = ⟨owner k, howner k⟩
        · rw [hi]
        · have hlt := hfit k hk ⟨owner k, howner k⟩ rfl
          rw [← byteRange_eq_pow] at hlt
          rw [h.eq i _ k hk rfl hi, arrival_of_lt (hfits.widthAt_le k) hlt]
      refine List.ext_getElem ((h.length i).trans (h.length j).symm) fun k hki hkj => ?_
      have hk : k < m := h.length i ▸ hki
      rw [← List.getD_eq_getElem _ 0 hki, ← List.getD_eq_getElem _ 0 hkj, hall i k hk, hall j k hk]

/-- In whatever order the players move, all of them end with a value for every position. Its
owner has it in full and all others have it cut to the declared length; so they agree just if
every sum fits into its length at its owner. -/
theorem agree_iff_fits (c : Config) (hpos : 0 < n) (hn : n < 2 ^ 62) (lengths : List (Option Nat))
    (hfits : ∀ len ∈ lengths, ∀ l, len = some l → l ≤ size T) (x : Fin n → List T)
    (hlen : ∀ i, (x i).length = lengths.length) (hcan : ∀ i, ∀ y ∈ x i, isCanonical y)
    (t : Fin n → Tape) :
    ∃ (v : Fin n → List T) (packed : Fin n → Bytes), World.EndsIn none
        (World.start (fun i => (Aggregator.sum (Player.numbered i) lengths (x i)).run.run
          (.ofConfig c)) t .empty)
        (World.start (fun i => .done (.ok (v i),
          { Aggregator.ofConfig c with packed := packed i })) t .empty) ∧
      (∀ i, (v i).length = lengths.length) ∧
      (∀ k < lengths.length, ∀ i o : Fin n,
        o.val = (Aggregator.ofConfig c).owner n lengths.length k → i ≠ o →
        (v i).getD k 0 = ofNat (rep ((v o).getD k 0) % 256 ^ widthAt T lengths k)) ∧
      ((∀ i j, v i = v j) ↔ n = 1 ∨ ∀ k < lengths.length, ∀ o : Fin n,
        o.val = (Aggregator.ofConfig c).owner n lengths.length k →
        rep ((v o).getD k 0) < 256 ^ widthAt T lengths k) := by
  have hwords : 2 * n < wordRange := by
    unfold wordRange
    omega
  have hcap : (none : Option Nat) ≠ some 0 := by simp
  have hfit : Fits T lengths := by
    intro len hl
    cases len with
    | none => exact le_rfl
    | some l => exact hfits _ hl l rfl
  have hused : Aggregator.usedLengths lengths.length lengths = lengths := if_pos rfl
  obtain ⟨v, packed, htog, hv⟩ := Aggregator.sum_told hcap hpos hwords (Aggregator.ofConfig c)
    (hused.symm ▸ hfit) hlen hcan (fun _ => []) t
  rw [hused] at hv
  refine ⟨v, packed, htog.endsIn, hv.length, ?_,
    hv.agree_iff hfit fun k => Aggregator.owner_lt _ hpos _ k⟩
  intro k hk i o ho hio
  rw [hv.eq i o k hk ho hio, ← byteRange_eq_pow]
  exact arrival_eq_ofNat (hfit.widthAt_le k) (hv.canonical o k)

theorem agree_iff_fits_two : 0 < 2 ∧ 2 < 2 ^ 62 ∧
    ∃ (v : Fin 2 → List Mersenne61) (packed : Fin 2 → Bytes), World.EndsIn none
        (World.start (fun i => (Aggregator.sum (Player.numbered i) [some 1, none]
          [(⟨200⟩ : Mersenne61), ⟨7⟩]).run.run (.ofConfig .default))
          (fun _ _ => Vector.replicate 32 0) .empty)
        (World.start (fun i => .done (.ok (v i),
          { Aggregator.ofConfig .default with packed := packed i }))
          (fun _ _ => Vector.replicate 32 0) .empty) ∧
      ((∀ i j, v i = v j) ↔ 2 = 1 ∨ ∀ k < 2, ∀ o : Fin 2, o.val = 0 →
        rep ((v o).getD k 0) < 256 ^ widthAt Mersenne61 [some 1, none] k) := by
  refine ⟨by decide, by decide, ?_⟩
  obtain ⟨v, packed, hends, -, -, hiff⟩ := agree_iff_fits .default (n := 2) (by decide) (by decide)
    [some 1, none] (by decide) (fun _ => [(⟨200⟩ : Mersenne61), ⟨7⟩]) (fun _ => rfl)
    (fun _ => by decide) (fun _ _ => Vector.replicate 32 0)
  exact ⟨v, packed, hends, hiff⟩

def carrying (i : Fin 2) : List Ring128 :=
  if i.val = 0 then [⟨18446744073709551615⟩, 0] else [⟨1⟩, 0]

def carried (i : Fin 2) : List Ring128 :=
  if i.val = 0 then [⟨18446744073709551616⟩, 0] else [⟨1⟩, 0]

def kept (i : Fin 2) : List Ring128 :=
  if i.val = 0 then [⟨18446744073709551616⟩, 0] else [0, 0]

theorem eq_pair {v : List Ring128} {a b : Ring128} (h : v.length = 2) (ha : v.getD 0 0 = a)
    (hb : v.getD 1 0 = b) : v = [a, b] := by
  obtain ⟨c, d, rfl⟩ := List.length_eq_two.mp h
  cases ha
  cases hb
  rfl

theorem carrying_accord (t : Fin 2 → Tape) :
    ∃ s', Accord none (fun i => Aggregator.exchange (.ofConfig ⟨2, 0, 0, 1⟩) (Player.numbered i)
        [some 8, some 8]) (fun i => ⟨[], carrying i⟩) t (fun _ => ()) s' t ∧
      ∀ i, (s' i).values = kept i := by
  have hcap : (none : Option Nat) ≠ some 0 := by simp
  have hlen : ∀ i, (carrying i).length = 2 := by decide
  have hsend : ∀ (v : Fin 2 → List Ring128) (i : Fin 2), ∀ k < 2,
      Sendable ([some 8, some 8].getD k none) ((v i).getD k 0) := by
    intro v i k _
    have hfits : Fits Ring128 [some 8, some 8] := by decide
    exact sendable (hfits.widthAt_le k) rfl
  obtain ⟨u, hu, hus⟩ := Summation.followStep_values .add hcap
    (starReduce_passes (n := 2) (j := 1) (by decide) (by decide)).toMatched
    (s := fun i => ⟨[], carrying i⟩) hlen (hsend carrying) t
  have hcarried : ∀ i, (u i).values = carried i := by
    intro i
    fin_cases i
    · exact eq_pair (hus 0).1 ((hus 0).2 0 (by decide)) ((hus 0).2 1 (by decide))
    · exact eq_pair (hus 1).1 ((hus 1).2 0 (by decide)) ((hus 1).2 1 (by decide))
  obtain ⟨v, hv, hvs⟩ := Summation.followStep_values .replace hcap
    (starGather_passes (n := 2) (j := 1) (by decide) (by decide)).toMatched (s := u)
    (fun i => (hus i).1) (hsend fun i => (u i).values) t
  simp only [hcarried] at hvs
  refine ⟨v, ?_, fun i => ?_⟩
  · have hreduce : Accord none (fun i => Summation.follow (Player.numbered i) .add
        [some 8, some 8] (starReduce i 2)) (fun i => ⟨[], carrying i⟩) t (fun _ => ()) u t :=
      hu.bind (Accord.pure _ u t)
    have hgather : Accord none (fun i => Summation.follow (Player.numbered i) .replace
        [some 8, some 8] (starGather i 2)) u t (fun _ => ()) v t :=
      hv.bind (Accord.pure _ v t)
    refine Accord.bind_done (fun i => Action.run_get _) ?_
    simp only [hlen]
    exact hreduce.bind hgather
  · fin_cases i
    · exact eq_pair (hvs 0).1 ((hvs 0).2 0 (by decide)) ((hvs 0).2 1 (by decide))
    · exact eq_pair (hvs 1).1 ((hvs 1).2 0 (by decide)) ((hvs 1).2 1 (by decide))

/-- Of two players that declare eight bytes for a sum of `2 ^ 64` along the star, one ends with
that sum and the other one with zero. -/
theorem carry_disagrees : ∃ packed : Fin 2 → Bytes, World.EndsIn none
    (World.start (fun i => (Aggregator.sum (Player.numbered i) [some 8, some 8]
      (carrying i)).run.run (.ofConfig ⟨2, 0, 0, 1⟩)) (fun _ _ => Vector.replicate 32 0) .empty)
    (World.start (fun i => .done (.ok (kept i),
      { Aggregator.ofConfig ⟨2, 0, 0, 1⟩ with packed := packed i }))
      (fun _ _ => Vector.replicate 32 0) .empty) ∧ kept 0 ≠ kept 1 := by
  obtain ⟨s', hacc, hs'⟩ := carrying_accord fun _ _ => Vector.replicate 32 0
  have htog := Aggregator.sum_of_exchange (a := .ofConfig ⟨2, 0, 0, 1⟩) hacc
  simp only [hs'] at htog
  exact ⟨fun i => (s' i).packed, htog.endsIn, by decide⟩

end AuthShares
