import AuthShares.Proofs.Agreement.Honest

/-!
# Whose commitment it is

A commitment holds the number of the party in two bytes. This tells the parties from each other
as long as there are at most as many as two bytes can count; from then on, what the first party
has committed to is what a later one could have committed to as well.
-/

set_option autoImplicit false

namespace AuthShares

variable {α : Type} [Wire α] [LawfulWire α]

theorem Player.of_eq_ok_iff {k n : Nat} {p : Player} :
    Player.of k n = .ok p ↔ p.me = k ∧ p.players = n := by
  unfold Player.of
  constructor
  · intro h
    split at h
    · cases h
      exact ⟨rfl, rfl⟩
    · cases h
  · rintro ⟨rfl, rfl⟩
    exact dif_pos p.me_lt

/-- Among `n` players nobody can take over what another one has committed to. -/
def Identifies (α : Type) [Wire α] (n : Nat) : Prop :=
  ∀ (i k : Nat) (p q : Player), Player.of i n = .ok p → Player.of k n = .ok q →
    ∀ (v v' : α) (r r' : Bytes32), committedBytes v r p.me = committedBytes v' r' q.me →
      v = v' ∧ r = r' ∧ i = k

theorem committedBytes_first_later (v : α) (r : Bytes32) :
    committedBytes v r 0 = committedBytes v r 65536 :=
  committedBytes_eq_iff.mpr ⟨rfl, rfl, rfl⟩

theorem identifies_iff [Nonempty α] (n : Nat) : Identifies α n ↔ n ≤ 65536 := by
  constructor
  · intro h
    by_contra hn
    obtain ⟨v⟩ := ‹Nonempty α›
    have hzero : Player.of 0 n = .ok ⟨0, n, by omega⟩ := Player.of_eq_ok_iff.mpr ⟨rfl, rfl⟩
    have hlater : Player.of 65536 n = .ok ⟨65536, n, by omega⟩ :=
      Player.of_eq_ok_iff.mpr ⟨rfl, rfl⟩
    have heq := (h 0 65536 _ _ hzero hlater v v zeroBytes zeroBytes
      (committedBytes_first_later v zeroBytes)).2.2
    cases heq
  · intro hn i k p q hp hq v v' r r' h
    obtain ⟨rfl, rfl⟩ := Player.of_eq_ok_iff.mp hp
    obtain ⟨rfl, hplayers⟩ := Player.of_eq_ok_iff.mp hq
    have hpme := p.me_lt
    have hqme := q.me_lt
    have hrange : byteRange 2 = 65536 := rfl
    obtain ⟨hv, hr, hme⟩ := committedBytes_eq_iff.mp h
    rw [Nat.mod_eq_of_lt (by omega), Nat.mod_eq_of_lt (by omega)] at hme
    exact ⟨hv, hr, hme⟩

/-- What is committed to tells the value and the nonce, and the number of the party as far as two
bytes can hold it; an opening that passes tells as much if the two strings do not collide. So
parties are told from each other just if there are at most as many as two bytes can count. -/
theorem commitments_identify [Nonempty α] :
    (∀ (v v' : α) (r r' : Bytes32) (i k : Nat), committedBytes v r i = committedBytes v' r' k ↔
      v = v' ∧ r = r' ∧ i % 65536 = k % 65536) ∧
    (∀ (v v' : α) (r r' : Bytes32) (i k : Nat),
      Set.InjOn Blake3.hash {committedBytes v r i, committedBytes v' r' k} →
        (opens (commit (committedBytes v r i)) (committedBytes v' r' k) ↔
          v = v' ∧ r = r' ∧ i % 65536 = k % 65536)) ∧
    ∀ n, Identifies α n ↔ n ≤ 65536 := by
  have hbytes : ∀ (v v' : α) (r r' : Bytes32) (i k : Nat),
      committedBytes v r i = committedBytes v' r' k ↔
        v = v' ∧ r = r' ∧ i % 65536 = k % 65536 := fun _ _ _ _ _ _ => committedBytes_eq_iff
  refine ⟨hbytes, fun v v' r r' i k hinj => ?_, identifies_iff⟩
  rw [← hbytes, opens, beq_iff_eq]
  exact ⟨fun h => hinj (by simp) (by simp) h.symm, fun h => congrArg commit h.symm⟩

/-- Among three parties that open zeroes the first one's commitment is not the second one's. -/
theorem commitments_identify_zeroes :
    LawfulWire Mersenne61 ∧ LawfulWire Ring128 ∧ LawfulWire Bytes32 ∧
      (∀ n, Identifies Mersenne61 n ↔ n ≤ 65536) ∧ (∀ n, Identifies Ring128 n ↔ n ≤ 65536) ∧
      (∀ n, Identifies Bytes32 n ↔ n ≤ 65536) ∧
      Set.InjOn Blake3.hash
        {committedBytes zeroBytes zeroBytes 0, committedBytes zeroBytes zeroBytes 1} ∧
      ¬ opens (commit (committedBytes zeroBytes zeroBytes 0))
        (committedBytes zeroBytes zeroBytes 1) := by
  have hne : Blake3.hash (committedBytes zeroBytes zeroBytes 0) ≠
      Blake3.hash (committedBytes zeroBytes zeroBytes 1) := fun h => by
    have hlead := (hash_zeroes 0).1
    have hlead' := (hash_zeroes 1).1
    have hfirst := congrArg (fun d : Bytes32 => d[0]) h
    simp only [Fin.val_zero, Fin.val_one] at hlead hlead' hfirst
    rw [hlead, hlead'] at hfirst
    revert hfirst
    decide
  have hinj : Set.InjOn Blake3.hash
      {committedBytes zeroBytes zeroBytes 0, committedBytes zeroBytes zeroBytes 1} :=
    Set.injOn_pair.mpr fun h => absurd h hne
  have : Nonempty Mersenne61 := ⟨⟨5⟩⟩
  have : Nonempty Ring128 := ⟨⟨5⟩⟩
  have : Nonempty Bytes32 := ⟨zeroBytes⟩
  have hopens := (commitments_identify (α := Bytes32)).2.1 _ _ _ _ 0 1 hinj
  exact ⟨inferInstance, inferInstance, inferInstance, (commitments_identify (α := Mersenne61)).2.2,
    (commitments_identify (α := Ring128)).2.2, (commitments_identify (α := Bytes32)).2.2, hinj,
    fun h => absurd (hopens.mp h).2.2 (by decide)⟩

/-- The first of 65537 parties can open what the last one has committed to. -/
theorem commitment_replayed : ∃ p q : Player, Player.of 0 65537 = .ok p ∧
    Player.of 65536 65537 = .ok q ∧ p.me ≠ q.me ∧
    ∀ (v : Mersenne61) (r : Bytes32), committedBytes v r p.me = committedBytes v r q.me ∧
      opens (commit (committedBytes v r q.me)) (committedBytes v r p.me) := by
  refine ⟨⟨0, 65537, by decide⟩, ⟨65536, 65537, by decide⟩, rfl, rfl, by decide, fun v r => ?_⟩
  have h := committedBytes_first_later v r
  exact ⟨h, by rw [opens, beq_iff_eq]; exact congrArg commit h⟩

end AuthShares
