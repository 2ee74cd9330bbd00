import AuthShares.Proofs.Aggregation.Steps

/-!
# Around the ring and along the star

In the ring block `b` sets out from party `b` and collects one input at every party it
comes to; once it has been everywhere it goes round again and is taken over. In the star
everyone sends to each other party what that one owns, and then gets back the completed
blocks of all others.
-/

set_option autoImplicit false

namespace AuthShares

variable {n : Nat} {capacity : Option Nat}

def distance (b : Nat) (i : Fin n) : Nat := (i + n - b) % n

theorem distance_eq {b : Nat} (hb : b < n) (i : Fin n) :
    distance b i = if b ≤ i then i - b else i + n - b := by
  have hi := i.isLt
  rw [distance, mod_of_lt_two_mul (by omega)]
  split <;> split <;> omega

theorem distance_lt (b : Nat) (i : Fin n) : distance b i < n := Nat.mod_lt _ i.pos

theorem distance_inj {b : Nat} (hb : b < n) {i j : Fin n} :
    distance b i = distance b j ↔ i = j := by
  refine ⟨fun h => Fin.ext ?_, fun h => h ▸ rfl⟩
  rw [distance_eq hb, distance_eq hb] at h
  have hi := i.isLt
  have hj := j.isLt
  split at h <;> split at h <;> omega

theorem distance_eq_iff {b d : Nat} (hb : b < n) (hd : d < n) (i : Fin n) :
    distance b i = d ↔ b = (i + n - d) % n := by
  have hi := i.isLt
  rw [distance_eq hb, mod_of_lt_two_mul (by omega)]
  split <;> split <;> omega

/-- Going on raises the distance, until it has been all around. -/
theorem distance_onward {b d : Nat} (hb : b < n) (hd : d ≤ n) (i : Fin n) :
    distance b (onward i d) =
      if distance b i + d < n then distance b i + d else distance b i + d - n := by
  have hi := i.isLt
  rw [distance_eq hb, distance_eq hb, val_onward hd]
  split_ifs <;> omega

def within (n b d : Nat) : Finset (Fin n) := Finset.univ.filter fun j => distance b j ≤ d

theorem mem_within {b d : Nat} {j : Fin n} : j ∈ within n b d ↔ distance b j ≤ d := by
  simp [within]

theorem within_all {b d : Nat} (hd : n ≤ d + 1) : within n b d = Finset.univ := by
  ext j
  have := distance_lt b j
  simp only [mem_within, Finset.mem_univ, iff_true]
  omega

theorem within_zero {b : Nat} (i : Fin n) (hb : b = i) : within n b 0 = {i} := by
  subst hb
  ext j
  have hi : distance i.val i = 0 := by simp [distance]
  rw [mem_within, Finset.mem_singleton, Nat.le_zero, ← hi, distance_inj i.isLt]

theorem within_succ {b d : Nat} (hb : b < n) {i : Fin n} (hi : distance b i = d + 1) :
    within n b (d + 1) = {i} ∪ within n b d := by
  ext j
  have hj : distance b j = d + 1 ↔ j = i := by rw [← hi, distance_inj hb]
  rw [Finset.mem_union, Finset.mem_singleton, mem_within, mem_within, ← hj]
  omega

theorem not_mem_within {b d : Nat} {i : Fin n} (hi : d < distance b i) :
    Disjoint {i} (within n b d) := by
  rw [Finset.disjoint_singleton_left, mem_within]
  omega

section Ring

/-- Whose inputs are in block `b` at party `i` after so many rounds of the reduction. -/
def ringReduced (r : Nat) (i : Fin n) (b : Nat) : Finset (Fin n) :=
  if distance b i ≤ r then within n b (distance b i) else {i}

def ringGathered (r : Nat) (i : Fin n) (b : Nat) : Finset (Fin n) :=
  if distance b (onward i 1) ≤ r then Finset.univ else within n b (distance b i)

def ringReduceStep (r : Nat) (i : Fin n) : Step where
  target := (i + 1) % n
  sendBlock := (i + n - r) % n
  source := (i + n - 1) % n
  receiveBlock := (i + n - 1 - r) % n
  sendFirst := i.val % 2 == 0

def ringGatherStep (r : Nat) (i : Fin n) : Step where
  target := (i + 1) % n
  sendBlock := (i + 1 + n - r) % n
  source := (i + n - 1) % n
  receiveBlock := (i + n - r) % n
  sendFirst := i.val % 2 == 0

theorem ringReduce_eq (i : Fin n) :
    ringReduce i n = (List.range' 0 (n - 1)).map fun r => ringReduceStep r i := by
  rw [← List.range_eq_range']
  rfl

theorem ringGather_eq (i : Fin n) :
    ringGather i n = (List.range' 0 (n - 1)).map fun r => ringGatherStep r i := by
  rw [← List.range_eq_range']
  rfl

theorem even_behind_odd {i : Fin n} (hn : 1 < n) (h : (i.val % 2 == 0) = false) :
    ((onward i (n - 1)).val % 2 == 0) = true := by
  have hi := i.isLt
  rw [beq_eq_false_iff_ne] at h
  rw [beq_iff_eq, val_onward (by omega)]
  split <;> omega

theorem ring_matched (send receive : Fin n → Nat) (hn : 1 < n)
    (hblock : ∀ i, send (onward i (n - 1)) = receive i) (hlt : ∀ i, receive i < n) :
    Matched (fun i : Fin n => ⟨(i + 1) % n, send i, (i + n - 1) % n, receive i, i.val % 2 == 0⟩)
      1 where
  pos := Nat.one_pos
  lt := hn
  target _ := rfl
  source i := by
    show (i.val + n - 1) % n = (i.val + (n - 1)) % n
    congr 1
    omega
  first _ := even_behind_odd hn
  block := hblock
  block_lt := hlt

theorem distance_behind {b d : Nat} (hb : b < n) {i : Fin n} (h : distance b i = d + 1) :
    distance b (onward i (n - 1)) = d := by
  have hlt := distance_lt b i
  rw [distance_onward hb (by omega), h]
  split <;> omega

theorem ringReduce_passes {r : Nat} (hr : r + 1 < n) :
    Passes .add (ringReduceStep (n := n) r) 1 (ringReduced r) (ringReduced (r + 1)) := by
  have hexpect : ∀ (i : Fin n) (b : Nat), b < n →
      (b = (ringReduceStep r i).receiveBlock ↔ distance b i = r + 1) := by
    intro i b hb
    rw [distance_eq_iff hb hr, ringReduceStep, Nat.sub_sub, Nat.add_comm 1 r]
  have hown : ∀ (i : Fin n) (b : Nat), distance b i = r + 1 → ringReduced r i b = {i} := by
    intro i b h
    rw [ringReduced, if_neg (by omega)]
  have hbehind : ∀ (i : Fin n) (b : Nat), b < n → distance b i = r + 1 →
      ringReduced r (onward i (n - 1)) b = within n b r := by
    intro i b hb h
    rw [ringReduced, distance_behind hb h, if_pos le_rfl]
  refine ⟨ring_matched _ _ (by omega) (fun i => ?_) fun i => Nat.mod_lt _ i.pos,
    fun i _ => ?_, fun i b hb => ?_⟩
  · have hi := i.isLt
    rw [val_onward (by omega), mod_of_lt_two_mul (by split <;> omega),
      mod_of_lt_two_mul (by omega)]
    split_ifs <;> omega
  · have hb : (ringReduceStep r i).receiveBlock < n := Nat.mod_lt _ i.pos
    have hd := (hexpect i _ hb).mp rfl
    rw [hown i _ hd, hbehind i _ hb hd]
    exact not_mem_within (by omega)
  · rw [if_congr (hexpect i b hb) rfl rfl]
    split
    · rename_i hd
      rw [ringReduced, if_pos hd.le, hd, Combine.who, hown i b hd, hbehind i b hb hd,
        within_succ hb hd]
    · rename_i hd
      exact if_congr (by omega) rfl rfl

/-- A party expects the block that set out from the party after it as many rounds ago. -/
theorem ringGather_expects {r : Nat} (hr : r + 1 < n) (i : Fin n) {b : Nat} (hb : b < n) :
    b = (ringGatherStep r i).receiveBlock ↔ distance b (onward i 1) = r + 1 := by
  have hi := i.isLt
  show b = (i.val + n - r) % n ↔ _
  rw [distance_eq_iff hb hr, val_onward (by omega), mod_of_lt_two_mul (by omega),
    mod_of_lt_two_mul (by split <;> omega)]
  split_ifs <;> omega

theorem ringGather_behind {r : Nat} {i : Fin n} {b : Nat} (hb : b < n)
    (h : distance b (onward i 1) = r + 1) :
    distance b (onward (onward i (n - 1)) 1) ≤ r := by
  have hlt := distance_lt b i
  rw [onward_onward (by omega)]
  rw [distance_onward hb (by omega)] at h
  split at h <;> omega

theorem ringGather_passes {r : Nat} (hr : r + 1 < n) :
    Passes .replace (ringGatherStep (n := n) r) 1 (ringGathered r) (ringGathered (r + 1)) := by
  refine ⟨ring_matched _ _ (by omega) (fun i => ?_) fun i => Nat.mod_lt _ i.pos,
    (fun i hc => by cases hc), fun i b hb => ?_⟩
  · have hi := i.isLt
    rw [val_onward (by omega)]
    split
    · rw [← Nat.add_mod_right (i.val + n - r)]
      congr 1
      omega
    · congr 1
      omega
  · rw [if_congr (ringGather_expects hr i hb) rfl rfl]
    split
    · rename_i hd
      rw [ringGathered, if_pos hd.le, Combine.who, ringGathered,
        if_pos (ringGather_behind hb hd)]
    · rename_i hd
      exact if_congr (by omega) rfl rfl

theorem ringReduced_last (i : Fin n) {b : Nat} (hb : b < n) :
    ringGathered 0 i b = ringReduced (n - 1) i b := by
  have hlt := distance_lt b i
  rw [ringReduced, if_pos (by omega), ringGathered]
  split
  · rename_i h
    rw [distance_onward hb (by omega)] at h
    rw [within_all]
    split at h <;> omega
  · rfl

theorem ringGathered_last (i : Fin n) (b : Nat) : ringGathered (n - 1) i b = Finset.univ := by
  have hlt := distance_lt b (onward i 1)
  rw [ringGathered, if_pos (by omega)]

theorem ringReduced_first (i : Fin n) {b : Nat} (hb : b < n) : ringReduced 0 i b = {i} := by
  rw [ringReduced]
  split
  · rename_i h
    have hi : b = i := by
      have := (distance_eq_iff hb i.pos i).mp (by omega)
      rwa [Nat.sub_zero, Nat.add_mod_right, Nat.mod_eq_of_lt i.isLt] at this
    rw [Nat.le_zero.mp h, within_zero i hi]
  · rfl

end Ring

section Star

/-- Whose inputs are in block `b` at party `i` before a round in which all send to the
owners of the blocks. -/
def starReduced (j : Nat) (i : Fin n) (b : Nat) : Finset (Fin n) :=
  if b = i then within n i (j - 1) else {i}

def starGathered (j : Nat) (i : Fin n) (b : Nat) : Finset (Fin n) :=
  if distance b i < j then Finset.univ else {i}

def starReduceStep (j : Nat) (i : Fin n) : Step where
  target := (i + n - j) % n
  sendBlock := (i + n - j) % n
  source := (i + j) % n
  receiveBlock := i
  sendFirst := starColor i n (n - j) == 0

def starGatherStep (j : Nat) (i : Fin n) : Step where
  target := (i + j) % n
  sendBlock := i
  source := (i + n - j) % n
  receiveBlock := (i + n - j) % n
  sendFirst := starColor i n j == 0

theorem starReduce_eq (i : Fin n) :
    starReduce i n = (List.range' 1 (n - 1)).map fun j => starReduceStep j i := rfl

theorem starGather_eq (i : Fin n) :
    starGather i n = (List.range' 1 (n - 1)).map fun j => starGatherStep j i := rfl

theorem cyclePosition_spec {me players stride : Nat} (h : cyclePosition me players stride ≠ 0) :
    cyclePosition me players stride < players ∧
      (me % Nat.gcd players stride + cyclePosition me players stride * stride) % players = me ∧
      ∀ k < cyclePosition me players stride,
        (me % Nat.gcd players stride + k * stride) % players ≠ me := by
  unfold cyclePosition at h ⊢
  cases hf : (List.range players).find? fun k =>
      (me % Nat.gcd players stride + k * stride) % players == me with
  | none => simp [hf] at h
  | some k =>
    obtain ⟨hk, hlt, hbefore⟩ := List.find?_range_eq_some.mp hf
    simp only [Option.getD_some]
    exact ⟨by simpa using hlt, by simpa using hk, fun l hl => by simpa using hbefore l hl⟩

theorem cyclePosition_eq {me players stride k : Nat} (hk : k < players)
    (hme : (me % Nat.gcd players stride + k * stride) % players = me)
    (hmin : ∀ l < k, (me % Nat.gcd players stride + l * stride) % players ≠ me) :
    cyclePosition me players stride = k := by
  have hf : (List.range players).find? (fun k =>
      (me % Nat.gcd players stride + k * stride) % players == me) = some k :=
    List.find?_range_eq_some.mpr ⟨by simpa using hme, by simpa using hk,
      fun l hl => by simpa using hmin l hl⟩
  rw [cyclePosition, hf]
  rfl

theorem cyclePosition_behind {a : Nat} (han : a < n) {i : Fin n}
    (h : cyclePosition i n a ≠ 0) :
    cyclePosition (onward i (n - a)) n a + 1 = cyclePosition i n a := by
  obtain ⟨hlt, hme, hmin⟩ := cyclePosition_spec h
  generalize cyclePosition i n a = p at h hlt hme hmin ⊢
  have hi : i.val % n = i := Nat.mod_eq_of_lt i.isLt
  have hmod : (onward i (n - a)).val % Nat.gcd n a = i % Nat.gcd n a := by
    have hdvd : Nat.gcd n a ∣ n - a := Nat.dvd_sub (Nat.gcd_dvd_left n a) (Nat.gcd_dvd_right n a)
    obtain ⟨c, hc⟩ := hdvd
    show (i.val + (n - a)) % n % Nat.gcd n a = _
    rw [Nat.mod_mod_of_dvd _ (Nat.gcd_dvd_left n a), hc, Nat.add_mul_mod_self_left]
  have hstep : ∀ l, (i % Nat.gcd n a + (l + 1) * a) % n = i ↔
      (i % Nat.gcd n a + l * a) % n = onward i (n - a) := by
    intro l
    generalize i.val % Nat.gcd n a = r
    have hsum : r + (l + 1) * a + (n - a) = r + l * a + n := by
      rw [Nat.succ_mul]
      omega
    constructor
    · intro hl
      have hm : r + (l + 1) * a + (n - a) ≡ i.val + (n - a) [MOD n] :=
        Nat.ModEq.add_right _ (hl.trans hi.symm)
      rw [hsum] at hm
      exact (Nat.add_mod_right _ _).symm.trans hm
    · intro hl
      have hm : r + (l + 1) * a + (n - a) ≡ i.val + (n - a) [MOD n] := by
        rw [hsum]
        exact (Nat.add_mod_right _ _).trans hl
      exact Eq.trans (Nat.ModEq.add_right_cancel' _ hm) hi
  have hp : p - 1 + 1 = p := by omega
  rw [cyclePosition_eq (k := p - 1) (by omega), hp]
  · rw [hmod, ← hstep, hp]
    exact hme
  · intro l hl
    rw [hmod, ne_eq, ← hstep]
    exact hmin (l + 1) (by omega)

theorem first_behind_second {a : Nat} (han : a < n) {i : Fin n}
    (h : (starColor i n a == 0) = false) : (starColor (onward i (n - a)) n a == 0) = true := by
  rw [beq_eq_false_iff_ne, starColor] at h
  rw [beq_iff_eq, starColor]
  have hbehind := cyclePosition_behind han (i := i) (by omega)
  omega

/-- Steps along the star are matched, if everyone expects the block that is sent to it. -/
theorem star_matched {a : Nat} (ha : 0 < a) (han : a < n) (step : Fin n → Step)
    (htarget : ∀ i, (step i).target = onward i a)
    (hsource : ∀ i, (step i).source = onward i (n - a))
    (hfirst : ∀ i, (step i).sendFirst = (starColor i n a == 0))
    (hblock : ∀ i, (step (onward i (n - a))).sendBlock = (step i).receiveBlock)
    (hlt : ∀ i, (step i).receiveBlock < n) : Matched step a where
  pos := ha
  lt := han
  target := htarget
  source := hsource
  first i h := by
    rw [hfirst] at h ⊢
    exact first_behind_second han h
  block := hblock
  block_lt := hlt

theorem starReduce_passes {j : Nat} (hj : 0 < j) (hjn : j < n) :
    Passes .add (starReduceStep (n := n) j) (n - j) (starReduced j) (starReduced (j + 1)) := by
  have hback : ∀ i : Fin n, onward i (n - (n - j)) = onward i j := by
    intro i
    rw [Nat.sub_sub_self hjn.le]
  have hdist : ∀ i : Fin n, distance i (onward i j) = j := by
    intro i
    have hi : distance i.val i = 0 := by simp [distance]
    rw [distance_onward i.isLt hjn.le, hi, Nat.zero_add, if_pos hjn]
  refine ⟨star_matched (by omega) (by omega) _ (fun i => ?_) (fun i => ?_) (fun _ => rfl)
    (fun i => ?_) fun i => i.isLt, fun i _ => ?_, fun i b hb => ?_⟩
  · show (i.val + n - j) % n = (i.val + (n - j)) % n
    rw [Nat.add_sub_assoc hjn.le]
  · rw [hback]
    rfl
  · have hi := onward_onward (a := j) (b := n - j) (by omega) i
    rw [hback]
    show ((onward i j).val + n - j) % n = i
    rw [Nat.add_sub_assoc hjn.le]
    exact congrArg Fin.val hi
  · have hne : i.val ≠ (onward i j).val := fun h => onward_ne hj hjn i (Fin.ext h.symm)
    show Disjoint (starReduced j i i.val) (starReduced j (onward i (n - (n - j))) i.val)
    rw [hback, starReduced, if_pos rfl, starReduced, if_neg hne, disjoint_comm]
    exact not_mem_within (by rw [hdist]; omega)
  · show starReduced (j + 1) i b = if b = i.val then _ else _
    split
    · rename_i hbi
      have hne : b ≠ (onward i j).val := fun h => onward_ne hj hjn i (Fin.ext (h.symm.trans hbi))
      have hsucc : within n i j = {onward i j} ∪ within n i (j - 1) := by
        obtain ⟨d, rfl⟩ : ∃ d, j = d + 1 := ⟨j - 1, by omega⟩
        exact within_succ i.isLt (hdist i)
      rw [hback, starReduced, if_pos hbi, Combine.who, starReduced, if_pos hbi, starReduced,
        if_neg hne, Finset.union_comm]
      exact hsucc
    · rename_i hbi
      rw [starReduced, if_neg hbi, starReduced, if_neg hbi]

/-- A party expects the block of the party as many places behind it as rounds have begun. -/
theorem starGather_expects {j : Nat} (hjn : j < n) (i : Fin n) {b : Nat} (hb : b < n) :
    b = (starGatherStep j i).receiveBlock ↔ distance b i = j :=
  (distance_eq_iff hb hjn i).symm

theorem starGather_behind {j : Nat} (hj : 0 < j) (hjn : j < n) {i : Fin n} {b : Nat} (hb : b < n)
    (h : distance b i = j) : distance b (onward i (n - j)) = 0 := by
  rw [distance_onward hb (by omega), h]
  split <;> omega

theorem starGather_passes {j : Nat} (hj : 0 < j) (hjn : j < n) :
    Passes .replace (starGatherStep (n := n) j) j (starGathered j) (starGathered (j + 1)) := by
  refine ⟨star_matched hj hjn _ (fun _ => rfl) (fun i => ?_) (fun _ => rfl)
    (fun i => ?_) fun i => Nat.mod_lt _ i.pos, (fun i hc => by cases hc), fun i b hb => ?_⟩
  · show (i.val + n - j) % n = (i.val + (n - j)) % n
    rw [Nat.add_sub_assoc hjn.le]
  · show (i.val + (n - j)) % n = (i.val + n - j) % n
    rw [Nat.add_sub_assoc hjn.le]
  · rw [if_congr (starGather_expects hjn i hb) rfl rfl]
    split
    · rename_i h
      have hsource := starGather_behind hj hjn hb h
      rw [starGathered, if_pos (by omega), Combine.who, starGathered, if_pos (by omega)]
    · rename_i h
      exact if_congr (by omega) rfl rfl

theorem starReduced_first (i : Fin n) (b : Nat) : starReduced 1 i b = {i} := by
  rw [starReduced]
  split
  · exact within_zero i rfl
  · rfl

theorem starReduced_last (hn : 0 < n) (i : Fin n) {b : Nat} (hb : b < n) :
    starGathered 1 i b = starReduced n i b := by
  have hd : distance b i < 1 ↔ b = i := by
    rw [Nat.lt_one_iff, distance_eq_iff hb hn, Nat.sub_zero, Nat.add_mod_right,
      Nat.mod_eq_of_lt i.isLt]
  rw [starGathered, starReduced, if_congr hd rfl rfl, within_all (by omega)]

theorem starGathered_last (i : Fin n) (b : Nat) : starGathered n i b = Finset.univ :=
  if_pos (distance_lt b i)

end Star

namespace Summation

variable {T : Type} [MacElement T] [Modular T] {q : Nat → Nat} {m : Nat} {x : Fin n → List T}
  {lengths : List (Option Nat)} {s : Fin n → Summation T}

/-- After the rounds of the first kind the blocks around the ring are complete. -/
theorem ringReduce_accord (hcap : capacity ≠ some 0) (f : Faithful T lengths q m x)
    (hs : ∀ i, Shows q m x (s i).values fun _ => {i}) (t : Fin n → Tape) :
    ∃ s', Accord capacity (fun i => follow (Player.numbered i) .add lengths (ringReduce i n)) s t
        (fun _ => ()) s' t ∧
      ∀ i, Shows q m x (s' i).values fun k => ringReduced (n - 1) i (blockOf n m k) := by
  simp only [ringReduce_eq]
  obtain ⟨u, hu, hus⟩ := follow_accord (C := ringReduced) hcap f 0 (n - 1)
    (fun r _ hr => ringReduce_passes (by omega))
    (fun i => (hs i).congr fun k _ => ringReduced_first i (blockOf_lt i.pos m k)) t
  exact ⟨u, hu, fun i => (hus i).congr fun k _ => by rw [Nat.zero_add]⟩

/-- Around the ring everyone gets the sum of all inputs. -/
theorem ring_accord (hcap : capacity ≠ some 0) (f : Faithful T lengths q m x)
    (hs : ∀ i, Shows q m x (s i).values fun _ => {i}) (t : Fin n → Tape) :
    ∃ s', Accord capacity (fun i => do
        follow (Player.numbered i) .add lengths (ringReduce i n)
        follow (Player.numbered i) .replace lengths (ringGather i n)) s t (fun _ => ()) s' t ∧
      ∀ i, Shows q m x (s' i).values fun _ => Finset.univ := by
  obtain ⟨u, hu, hus⟩ := ringReduce_accord hcap f hs t
  simp only [ringGather_eq]
  obtain ⟨v, hv, hvs⟩ := follow_accord (C := ringGathered) hcap f 0 (n - 1)
    (fun r _ hr => ringGather_passes (by omega))
    (fun i => (hus i).congr fun k _ => ringReduced_last i (blockOf_lt i.pos m k)) t
  refine ⟨v, hu.bind hv, fun i => (hvs i).congr fun k _ => ?_⟩
  rw [Nat.zero_add, ringGathered_last]

/-- After the rounds of the first kind the owners hold the completed blocks. -/
theorem starReduce_accord (hcap : capacity ≠ some 0) (f : Faithful T lengths q m x)
    (hs : ∀ i, Shows q m x (s i).values fun _ => {i}) (t : Fin n → Tape) :
    ∃ s', Accord capacity (fun i => follow (Player.numbered i) .add lengths (starReduce i n)) s t
        (fun _ => ()) s' t ∧
      ∀ i, Shows q m x (s' i).values fun k => starReduced n i (blockOf n m k) := by
  simp only [starReduce_eq]
  obtain ⟨u, hu, hus⟩ := follow_accord (C := starReduced) hcap f 1 (n - 1)
    (fun j hj hjn => starReduce_passes hj (by omega))
    (fun i => (hs i).congr fun k _ => starReduced_first i _) t
  exact ⟨u, hu, fun i => (hus i).congr fun k _ => by rw [Nat.add_sub_cancel' i.pos]⟩

/-- Along the star everyone gets the sum of all inputs. -/
theorem star_accord (hcap : capacity ≠ some 0) (f : Faithful T lengths q m x)
    (hs : ∀ i, Shows q m x (s i).values fun _ => {i}) (t : Fin n → Tape) :
    ∃ s', Accord capacity (fun i => do
        follow (Player.numbered i) .add lengths (starReduce i n)
        follow (Player.numbered i) .replace lengths (starGather i n)) s t (fun _ => ()) s' t ∧
      ∀ i, Shows q m x (s' i).values fun _ => Finset.univ := by
  obtain ⟨u, hu, hus⟩ := starReduce_accord hcap f hs t
  simp only [starGather_eq]
  obtain ⟨v, hv, hvs⟩ := follow_accord (C := starGathered) hcap f 1 (n - 1)
    (fun j hj hjn => starGather_passes hj (by omega))
    (fun i => (hus i).congr fun k _ =>
      starReduced_last i.pos i (blockOf_lt i.pos m k)) t
  refine ⟨v, hu.bind hv, fun i => (hvs i).congr fun k _ => ?_⟩
  rw [Nat.add_sub_cancel' i.pos, starGathered_last]

end Summation

end AuthShares
