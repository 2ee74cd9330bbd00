import AuthShares.Proofs.Aggregation.Rendezvous

/-!
# Colors along a cycle

Strides of one length lead the players around in cycles, as many as the common divisor of the
stride and the number of players, and each cycle starts at its least player. A walk from there
meets every player of the cycle before it comes around. So colors by turns are different on both
sides of every stride, except of one that comes back to a start.
-/

set_option autoImplicit false

namespace AuthShares

variable {n a : Nat}

/-- Strides of `a` from the second to the last number on, until `me` is met; the last number counts
them. A sum is formed only as long as it is below twice the number of players. -/
inductive Walk (n a me : Nat) : Nat → Nat → Prop
  | arrived : Walk n a me me 0
  | stride {x k : Nat} :
    x ≠ me → x + a < 2 * n → Walk n a me ((x + a) % n) k → Walk n a me x (k + 1)

structure Colored (n a : Nat) : Prop where
  walk (p : Nat) : p < n → Walk n a p (p % Nat.gcd n a) (cyclePosition p n a)
  position_lt (p : Nat) : p < n → cyclePosition p n a < n / Nat.gcd n a
  color_ne (p : Nat) : p < n → Nat.gcd n a ≤ (p + a) % n →
    starColor p n a ≠ starColor ((p + a) % n) n a
  color_start (q : Nat) : q < Nat.gcd n a →
    (∀ k, (q + k * a) % n % Nat.gcd n a = q) ∧ starColor q n a = 0
  both (p : Nat) : p < n → ∀ color < 2, ∃ k, starColor ((p + k * a) % n) n a = color

theorem walk_of_least {me x k : Nat} (hx : x < n) (ha : a < n) (hme : (x + k * a) % n = me)
    (hmin : ∀ l < k, (x + l * a) % n ≠ me) : Walk n a me x k := by
  induction k generalizing x with
  | zero =>
    rw [Nat.zero_mul, Nat.add_zero, Nat.mod_eq_of_lt hx] at hme
    subst hme
    exact .arrived
  | succ k ih =>
    have hnext : ∀ l, ((x + a) % n + l * a) % n = (x + (l + 1) * a) % n := by
      intro l
      rw [Nat.mod_add_mod, Nat.succ_mul, Nat.add_assoc, Nat.add_comm a]
    apply Walk.stride
    · simpa [Nat.mod_eq_of_lt hx] using hmin 0 (Nat.succ_pos k)
    · omega
    · apply ih (Nat.mod_lt _ (by omega))
      · rw [hnext]
        exact hme
      · intro l hl
        rw [hnext]
        exact hmin (l + 1) (Nat.succ_lt_succ hl)

section

variable (ha : 0 < a) (han : a < n)
include ha han

theorem gcd_lt : Nat.gcd n a < n := (Nat.gcd_le_right n ha).trans_lt han

/-- Fewer strides than it takes to come around lead from the start of a cycle to any of its
players. -/
theorem exists_strides {p : Nat} (hp : p < n) :
    ∃ k < n / Nat.gcd n a, (p % Nat.gcd n a + k * a) % n = p := by
  obtain ⟨m, hm⟩ := exists_mul_modEq_gcd ha han
  have hg : 0 < Nat.gcd n a := Nat.gcd_pos_of_pos_right n ha
  obtain ⟨l, hl⟩ := Nat.gcd_dvd_left n a
  obtain ⟨b, hb⟩ := Nat.gcd_dvd_right n a
  have hp' := Nat.mod_add_div p (Nat.gcd n a)
  generalize Nat.gcd n a = g at hm hg hl hb hp' ⊢
  have hlength : n / g = l := by rw [hl, Nat.mul_div_cancel_left _ hg]
  have hpos : 0 < l := Nat.pos_of_ne_zero fun h => by simp [h] at hl; omega
  refine ⟨p / g * m % l, ?_, ?_⟩
  · rw [hlength]
    exact Nat.mod_lt _ hpos
  -- around a cycle, strides can be left out in multiples of its length
  have hround : p / g * m % l * a ≡ p / g * m * a [MOD n] := by
    have hmod := ((Nat.mod_modEq (p / g * m) l).mul_right' g).mul_right b
    rwa [Nat.mul_assoc, Nat.mul_assoc (p / g * m), ← hb, Nat.mul_comm l g, ← hl] at hmod
  have hway : p % g + p / g * m % l * a ≡ p [MOD n] := by
    calc p % g + p / g * m % l * a
        ≡ p % g + p / g * m * a [MOD n] := hround.add_left _
      _ = p % g + p / g * (a * m) := by ring
      _ ≡ p % g + p / g * g [MOD n] := (hm.mul_left _).add_left _
      _ = p := by rw [Nat.mul_comm, hp']
  exact Nat.ModEq.eq_of_lt_of_lt ((Nat.mod_modEq _ n).trans hway) (Nat.mod_lt _ (by omega)) hp

/-- The position of a player is the number of the strides that first lead to it. -/
theorem cyclePosition_least {p : Nat} (hp : p < n) :
    cyclePosition p n a < n / Nat.gcd n a ∧
      (p % Nat.gcd n a + cyclePosition p n a * a) % n = p ∧
      ∀ l < cyclePosition p n a, (p % Nat.gcd n a + l * a) % n ≠ p := by
  obtain ⟨k, hk, hkp⟩ := exists_strides ha han hp
  have hex : ∃ k, (p % Nat.gcd n a + k * a) % n = p := ⟨k, hkp⟩
  have hlt : Nat.find hex < n / Nat.gcd n a := (Nat.find_min' hex hkp).trans_lt hk
  have hpos : cyclePosition p n a = Nat.find hex :=
    cyclePosition_eq (hlt.trans_le (Nat.div_le_self _ _)) (Nat.find_spec hex)
      fun _ hl => Nat.find_min hex hl
  rw [hpos]
  exact ⟨hlt, Nat.find_spec hex, fun _ hl => Nat.find_min hex hl⟩

theorem cyclePosition_start {q : Nat} (hq : q < Nat.gcd n a) : cyclePosition q n a = 0 := by
  have hgn := gcd_lt ha han
  apply cyclePosition_eq (by omega)
  · rw [Nat.mod_eq_of_lt hq, Nat.zero_mul, Nat.add_zero, Nat.mod_eq_of_lt (by omega)]
  · simp

theorem cyclePosition_ne_zero {q : Nat} (hq : q < n) (hg : Nat.gcd n a ≤ q) :
    cyclePosition q n a ≠ 0 := by
  intro hzero
  have hme := (cyclePosition_least ha han hq).2.1
  have hlt : q % Nat.gcd n a < Nat.gcd n a :=
    Nat.mod_lt _ (Nat.gcd_pos_of_pos_right n ha)
  rw [hzero, Nat.zero_mul, Nat.add_zero, Nat.mod_eq_of_lt (by omega)] at hme
  omega

/-- A stride that does not come back to the start of a cycle leads to the next position. -/
theorem cyclePosition_ahead {p : Nat} (hp : p < n) (hg : Nat.gcd n a ≤ (p + a) % n) :
    cyclePosition ((p + a) % n) n a = cyclePosition p n a + 1 := by
  have hback : onward (onward ⟨p, hp⟩ a) (n - a) = ⟨p, hp⟩ := onward_onward (by omega) _
  have hbehind := cyclePosition_behind han (i := onward ⟨p, hp⟩ a)
    (cyclePosition_ne_zero ha han (Fin.isLt _) hg)
  rw [hback] at hbehind
  exact hbehind.symm

omit ha han in
theorem mod_stride {q : Nat} (hq : q < Nat.gcd n a) (k : Nat) :
    (q + k * a) % n % Nat.gcd n a = q := by
  obtain ⟨b, hb⟩ := Nat.gcd_dvd_right n a
  rw [Nat.mod_mod_of_dvd _ (Nat.gcd_dvd_left n a)]
  generalize Nat.gcd n a = g at hq hb
  rw [hb, Nat.mul_left_comm, Nat.add_mul_mod_self_left, Nat.mod_eq_of_lt hq]

/-- Strides lead from every player to the start of its cycle. -/
theorem exists_start {p : Nat} (hp : p < n) : ∃ k, (p + k * a) % n = p % Nat.gcd n a := by
  obtain ⟨k, hk⟩ := exists_second ha han ⟨p, hp⟩
  have hgn := gcd_lt ha han
  have hlt : p % Nat.gcd n a < n :=
    (Nat.mod_lt _ (Nat.gcd_pos_of_pos_right n ha)).trans hgn
  refine ⟨k + (n - 1), ?_⟩
  -- from the second player of the cycle it is once around, less the stride that led there
  have hturn : a + (n - 1) * a = n * a := by
    rw [Nat.add_comm, ← Nat.succ_mul, Nat.succ_eq_add_one, Nat.sub_add_cancel (by omega)]
  have hway : p + (k + (n - 1)) * a ≡ p % Nat.gcd n a [MOD n] := by
    calc p + (k + (n - 1)) * a
        = p + k * a + (n - 1) * a := by ring
      _ ≡ p % Nat.gcd n a + a + (n - 1) * a [MOD n] := Nat.ModEq.add_right _ hk
      _ = p % Nat.gcd n a + n * a := by rw [Nat.add_assoc, hturn]
      _ ≡ p % Nat.gcd n a [MOD n] := Nat.add_mul_mod_self_left _ _ _
  exact Nat.ModEq.eq_of_lt_of_lt ((Nat.mod_modEq _ n).trans hway) (Nat.mod_lt _ (by omega)) hlt

theorem exists_color {p : Nat} (hp : p < n) {color : Nat} (hcolor : color < 2) :
    ∃ k, starColor ((p + k * a) % n) n a = color := by
  have hstart : p % Nat.gcd n a < Nat.gcd n a := Nat.mod_lt _ (Nat.gcd_pos_of_pos_right n ha)
  obtain rfl | rfl : color = 0 ∨ color = 1 := by omega
  · obtain ⟨k, hk⟩ := exists_start ha han hp
    exact ⟨k, by rw [hk, starColor, cyclePosition_start ha han hstart]⟩
  · obtain ⟨k, hk⟩ := exists_second ha han ⟨p, hp⟩
    refine ⟨k, ?_⟩
    have hk' : (p + k * a) % n = (p % Nat.gcd n a + a) % n := hk
    rw [hk', starColor, cyclePosition_second ha han hstart]

/-- However long the stride is, the walk to any player ends before it is around, the colors on both
sides of a stride differ unless it leads to the start of a cycle, all starts have the first color,
and there are both colors in every cycle. -/
theorem colors_alternate : Colored n a where
  walk p hp := by
    obtain ⟨-, hme, hmin⟩ := cyclePosition_least ha han hp
    have hgn := gcd_lt ha han
    have hlt : p % Nat.gcd n a < n :=
      (Nat.mod_lt _ (Nat.gcd_pos_of_pos_right n ha)).trans hgn
    exact walk_of_least hlt han hme hmin
  position_lt p hp := (cyclePosition_least ha han hp).1
  color_ne p hp hg := by
    rw [starColor, starColor, cyclePosition_ahead ha han hp hg]
    omega
  color_start q hq := by
    constructor
    · exact mod_stride hq
    · rw [starColor, cyclePosition_start ha han hq]
  both p hp color hcolor := exists_color ha han hp hcolor

end

/-- Six players in two odd cycles: a stride of two comes back to a start of the same color. -/
theorem colors_alternate_six : 0 < 2 ∧ 2 < 6 ∧ Colored 6 2 ∧
    (List.range 6).map (fun p => starColor p 6 2) = [0, 0, 1, 1, 0, 0] :=
  ⟨by decide, by decide, colors_alternate (by decide) (by decide), by decide⟩

end AuthShares
