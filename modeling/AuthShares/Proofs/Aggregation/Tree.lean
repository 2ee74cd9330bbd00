import AuthShares.Proofs.Aggregation.Contributions
import AuthShares.Proofs.Network.Everyone

/-!
# Up and down the tree

Every input belongs to one of the active positions; after a round up the tree it belongs
to the remainder of that position, so that in the end the root has all of them. Down the
tree the message of the root is passed on position by position, each of which has been
told before it tells others.
-/

set_option autoImplicit false

namespace AuthShares

variable {n : Nat} {capacity : Option Nat}

namespace TreeRound

def sources (r : TreeRound) (position : Nat) : List Nat :=
  (List.range ((r.active - 1 - position) / r.remaining)).map fun k =>
    position + (k + 1) * r.remaining

theorem role_collect {r : TreeRound} {p : Nat} (h : p < r.remaining) :
    r.role p = .collect (r.sources p) := if_pos h

theorem role_report {r : TreeRound} {p : Nat} (h : r.remaining ≤ p) (h' : p < r.active) :
    r.role p = .report (p % r.remaining) := by
  rw [role, if_neg (by omega), if_pos h']

theorem role_idle {r : TreeRound} {p : Nat} (h : r.remaining ≤ p) (h' : r.active ≤ p) :
    r.role p = .idle := by
  rw [role, if_neg (by omega), if_neg (by omega)]

theorem mem_sources {r : TreeRound} {p a : Nat} (hp : p < r.remaining) :
    a ∈ r.sources p ↔ r.remaining ≤ a ∧ a < r.active ∧ a % r.remaining = p := by
  simp only [sources, List.mem_map, List.mem_range]
  constructor
  · rintro ⟨k, hk, rfl⟩
    have hle : (k + 1) * r.remaining ≤ r.active - 1 - p :=
      (Nat.le_div_iff_mul_le (by omega)).mp hk
    rw [Nat.add_mul_mod_self_right, Nat.mod_eq_of_lt hp]
    rw [Nat.succ_mul] at hle ⊢
    omega
  · rintro ⟨hlow, hhigh, hmod⟩
    have hdiv := Nat.div_add_mod a r.remaining
    have hone : 1 ≤ a / r.remaining := (Nat.one_le_div_iff (by omega)).mpr hlow
    rw [hmod, Nat.mul_comm] at hdiv
    refine ⟨a / r.remaining - 1, ?_, ?_⟩
    · have hle : a / r.remaining ≤ (r.active - 1 - p) / r.remaining :=
        (Nat.le_div_iff_mul_le (by omega)).mpr (by omega)
      omega
    · rw [Nat.sub_add_cancel hone]
      omega

theorem sources_nodup {r : TreeRound} (hr : 0 < r.remaining) (p : Nat) :
    (r.sources p).Nodup := by
  refine List.Nodup.map (fun k l h => ?_) List.nodup_range
  have := Nat.eq_of_mul_eq_mul_right hr (Nat.add_left_cancel h)
  omega

end TreeRound

theorem treeRounds_one (fanIn : Nat) : treeRounds fanIn 1 = [] := by
  have h : (1 + fanIn - 2) / fanIn = 0 := by
    by_cases hf : fanIn = 0
    · simp [hf]
    · exact Nat.div_eq_of_lt (by omega)
  rw [treeRounds, h, if_neg (by omega)]

theorem treeRounds_cons {fanIn active : Nat} (hf : 2 ≤ fanIn) (ha : 2 ≤ active) :
    ∃ remaining, 0 < remaining ∧ remaining < active ∧
      treeRounds fanIn active = ⟨active, remaining⟩ :: treeRounds fanIn remaining := by
  have hpos : 0 < (active + fanIn - 2) / fanIn := Nat.div_pos (by omega) (by omega)
  have hlt : (active + fanIn - 2) / fanIn < active := by
    have htwo : 2 * active ≤ fanIn * active := Nat.mul_le_mul_right active hf
    have hfan : fanIn * 2 ≤ fanIn * active := Nat.mul_le_mul_left fanIn ha
    apply Nat.div_lt_of_lt_mul
    omega
  exact ⟨_, hpos, hlt, by rw [treeRounds, if_pos ⟨hpos, hlt⟩]⟩

def owned (owner : Fin n → Nat) (position : Nat) : Finset (Fin n) :=
  Finset.univ.filter fun j => owner j = position

theorem mem_owned {owner : Fin n → Nat} {position : Nat} {j : Fin n} :
    j ∈ owned owner position ↔ owner j = position := by
  simp [owned]

theorem owned_disjoint (owner : Fin n → Nat) {a b : Nat} (h : a ≠ b) :
    Disjoint (owned owner a) (owned owner b) := by
  rw [Finset.disjoint_left]
  intro j ha hb
  exact h ((mem_owned.mp ha).symm.trans (mem_owned.mp hb))

namespace Summation

open World Player

variable {lengths : List (Option Nat)} {root : Nat}

theorem mem_map_absolute (hroot : root < n) (hn : 2 * n < wordRange) (i a : Fin n)
    {positions : List Nat} (hp : ∀ p ∈ positions, p < n) :
    a.val ∈ positions.map ((Player.numbered i).absolute root) ↔
      (Player.numbered a).relative root ∈ positions := by
  simp only [List.mem_map, absolute_eq_place hroot]
  constructor
  · rintro ⟨p, hmem, he⟩
    obtain rfl : place hroot p = a := Fin.ext he
    rwa [relative_place hroot hn (hp p hmem)]
  · intro hmem
    exact ⟨_, hmem, congrArg Fin.val (place_relative hroot hn a)⟩

theorem map_absolute_nodup (hroot : root < n) (hn : 2 * n < wordRange) (i : Fin n)
    {positions : List Nat} (hp : ∀ p ∈ positions, p < n) (hd : positions.Nodup) :
    (positions.map ((Player.numbered i).absolute root)).Nodup := by
  refine List.Nodup.map_on (fun p hmem p' hmem' he => ?_) hd
  have he' : place hroot p = place hroot p' := Fin.ext he
  rw [← relative_place hroot hn (hp p hmem), he', relative_place hroot hn (hp p' hmem')]

section Round

variable {T : Type} [Element T] {active remaining : Nat} {s : Summation T} {i : Fin n}

theorem run_report (hr : remaining ≤ (Player.numbered i).relative root)
    (ha : (Player.numbered i).relative root < active) (hroot : root < n) :
    (reduceRound (Player.numbered i) root lengths ⟨active, remaining⟩ :
        Action (Summation T) Unit).run.run s =
      .scatter .atOnce openingPhase
        [((place hroot ((Player.numbered i).relative root % remaining)).val,
          Message.encodeRange lengths 0 s.values.length s.values)]
        (Action.after { s with packed := Message.encodeRange lengths 0 s.values.length s.values }
          pure) := by
  rw [reduceRound, TreeRound.role_report hr ha]
  show ((packAll lengths >>= fun message => _ : Action (Summation T) Unit).run.run s) = _
  rw [Action.run_bind_done (run_packAll lengths s)]
  exact Action.run_scatter 1 openingPhase _ _

theorem run_collect (hr : (Player.numbered i).relative root < remaining) :
    (reduceRound (Player.numbered i) root lengths ⟨active, remaining⟩ :
        Action (Summation T) Unit).run.run s =
      .gather (.ofSize ((TreeRound.sources ⟨active, remaining⟩
          ((Player.numbered i).relative root)).map ((Player.numbered i).absolute root)).length)
        openingPhase
        ((TreeRound.sources ⟨active, remaining⟩ ((Player.numbered i).relative root)).map
          ((Player.numbered i).absolute root))
        (fun _ => .ok ()) (Action.after s fun messages => absorbEach .add lengths messages) := by
  rw [reduceRound, TreeRound.role_collect hr]
  exact Action.run_gatherBytes openingPhase _ _ s

theorem run_idle (hr : remaining ≤ (Player.numbered i).relative root)
    (ha : active ≤ (Player.numbered i).relative root) :
    (reduceRound (Player.numbered i) root lengths ⟨active, remaining⟩ :
        Action (Summation T) Unit).run.run s = .done (.ok (), s) := by
  rw [reduceRound, TreeRound.role_idle hr ha]
  rfl

end Round

variable {T : Type} [MacElement T] [Modular T] {q : Nat → Nat} {m : Nat} {x : Fin n → List T}

/-- Every input belongs to an active position, and an active position holds the sum of the
inputs that belong to it. -/
structure Climbed (q : Nat → Nat) (m : Nat) (x : Fin n → List T) (root active : Nat)
    (owner : Fin n → Nat) (s : Fin n → Summation T) : Prop where
  owner_lt (j : Fin n) : owner j < active
  shows (i : Fin n) : ∃ W : Finset (Fin n), (Shows q m x (s i).values fun _ => W) ∧
    ((Player.numbered i).relative root < active →
      W = owned owner ((Player.numbered i).relative root))

theorem collect_shows (f : Faithful T lengths q m x) (hroot : root < n) (hn : 2 * n < wordRange)
    {active remaining : Nat} (hr : 0 < remaining) (hra : remaining < active) (han : active ≤ n)
    {owner : Fin n → Nat} {s : Fin n → Summation T} (hs : Climbed q m x root active owner s)
    {i : Fin n} (hi : (Player.numbered i).relative root < remaining) :
    ∃ u : Summation T, (absorbEach .add lengths
        ((TreeRound.sources ⟨active, remaining⟩ ((Player.numbered i).relative root)).map fun p =>
          Message.encodeRange lengths 0 m (s (place hroot p)).values) :
        Action (Summation T) Unit).run.run (s i) = .done (.ok (), u) ∧
      Shows q m x u.values fun _ =>
        owned (fun j => owner j % remaining) ((Player.numbered i).relative root) := by
  have hmem : ∀ p, p ∈ TreeRound.sources ⟨active, remaining⟩ ((Player.numbered i).relative root) ↔
      remaining ≤ p ∧ p < active ∧ p % remaining = (Player.numbered i).relative root :=
    fun p => TreeRound.mem_sources hi
  generalize hpos : (Player.numbered i).relative root = position at hi hmem ⊢
  have hown : Shows q m x (s i).values fun _ => owned owner position := by
    obtain ⟨W, hW, hWo⟩ := hs.shows i
    rw [hpos] at hWo
    rwa [hWo (by omega)] at hW
  have hothers : ∀ p ∈ TreeRound.sources ⟨active, remaining⟩ position,
      Shows q m x (s (place hroot p)).values fun _ => owned owner p := by
    intro p hp
    obtain ⟨-, hpa, -⟩ := (hmem p).mp hp
    obtain ⟨W, hW, hWo⟩ := hs.shows (place hroot p)
    rw [relative_place hroot hn (by omega)] at hWo
    rwa [hWo hpa] at hW
  obtain ⟨u, hu, hus⟩ := run_absorbEach f (TreeRound.sources ⟨active, remaining⟩ position)
    (fun p => (s (place hroot p)).values) (owned owner) hown hothers
    (fun p hp => owned_disjoint owner (by have := (hmem p).mp hp; omega))
    ((TreeRound.sources_nodup hr position).imp fun h => owned_disjoint owner h)
  refine ⟨u, hu, hus.congr fun _ _ => ?_⟩
  ext z
  have hz := hs.owner_lt z
  rw [mem_owned, mem_foldl_union, mem_owned]
  constructor
  · intro hmod
    by_cases hlow : owner z < remaining
    · exact .inl (by rwa [Nat.mod_eq_of_lt hlow] at hmod)
    · exact .inr ⟨owner z, (hmem _).mpr ⟨by omega, hz, hmod⟩, mem_owned.mpr rfl⟩
  · rintro (heq | ⟨p, hp, hzp⟩)
    · rw [heq, Nat.mod_eq_of_lt hi]
    · rw [mem_owned.mp hzp]
      exact ((hmem p).mp hp).2.2

/-- A party reports to another one just if the other one hears from it. -/
theorem report_iff (hroot : root < n) (hn : 2 * n < wordRange) {active remaining : Nat}
    (hr : 0 < remaining) (hra : remaining < active) (han : active ≤ n) (a b : Fin n) :
    (remaining ≤ (Player.numbered a).relative root ∧ (Player.numbered a).relative root < active) ∧
        b.val ∈ [(place hroot ((Player.numbered a).relative root % remaining)).val] ↔
      (Player.numbered b).relative root < remaining ∧
        a.val ∈ (TreeRound.sources ⟨active, remaining⟩ ((Player.numbered b).relative root)).map
          ((Player.numbered b).absolute root) := by
  have hlt : ∀ p, p < active → p < n := fun p hp => hp.trans_le han
  rw [List.mem_singleton, Fin.val_inj]
  constructor
  · rintro ⟨⟨hlow, hhigh⟩, rfl⟩
    have hmod : (Player.numbered a).relative root % remaining < remaining := Nat.mod_lt _ hr
    rw [relative_place hroot hn (by omega)]
    refine ⟨hmod, (mem_map_absolute hroot hn _ a fun p hp => ?_).mpr ?_⟩
    · exact hlt p ((TreeRound.mem_sources hmod).mp hp).2.1
    · exact (TreeRound.mem_sources hmod).mpr ⟨hlow, hhigh, rfl⟩
  · rintro ⟨hb, ha⟩
    have hmem := (mem_map_absolute hroot hn b a fun p hp =>
      hlt p ((TreeRound.mem_sources hb).mp hp).2.1).mp ha
    obtain ⟨hlow, hhigh, hmod⟩ := (TreeRound.mem_sources hb).mp hmem
    refine ⟨⟨hlow, hhigh⟩, ?_⟩
    rw [show _ % remaining = _ from hmod, place_relative hroot hn]

theorem sources_others (hroot : root < n) (hn : 2 * n < wordRange) {active remaining : Nat}
    (hr : 0 < remaining) (han : active ≤ n) {i : Fin n}
    (hi : (Player.numbered i).relative root < remaining) :
    ((TreeRound.sources ⟨active, remaining⟩ ((Player.numbered i).relative root)).map
        ((Player.numbered i).absolute root)).Nodup ∧
      ∀ a ∈ (TreeRound.sources ⟨active, remaining⟩ ((Player.numbered i).relative root)).map
        ((Player.numbered i).absolute root), a < n ∧ a ≠ i := by
  have hlt : ∀ p ∈ TreeRound.sources ⟨active, remaining⟩ ((Player.numbered i).relative root),
      p < n := fun p hp => ((TreeRound.mem_sources hi).mp hp).2.1.trans_le han
  refine ⟨map_absolute_nodup hroot hn i hlt (TreeRound.sources_nodup hr _), fun a ha => ?_⟩
  obtain ⟨p, hp, rfl⟩ := List.mem_map.mp ha
  refine ⟨(place hroot p).isLt, fun h => ?_⟩
  have hpi : place hroot p = i := Fin.ext h
  have hlow : remaining ≤ p := ((TreeRound.mem_sources hi).mp hp).1
  rw [← hpi, relative_place hroot hn (hlt p hp)] at hi
  omega

theorem target_others (hroot : root < n) (hn : 2 * n < wordRange) {remaining : Nat}
    (hr : 0 < remaining) {i : Fin n} (hi : remaining ≤ (Player.numbered i).relative root) :
    [(place hroot ((Player.numbered i).relative root % remaining)).val].Nodup ∧
      ∀ a ∈ [(place hroot ((Player.numbered i).relative root % remaining)).val],
        a < n ∧ a ≠ i := by
  refine ⟨List.nodup_singleton _, fun a ha => ?_⟩
  obtain rfl := List.mem_singleton.mp ha
  refine ⟨Fin.isLt _, fun h => ?_⟩
  have hin := relative_lt hroot hn i
  have hmod : (Player.numbered i).relative root % remaining < remaining := Nat.mod_lt _ hr
  have hself := relative_place hroot hn (hmod.trans_le (hi.trans hin.le))
  rw [Fin.ext h] at hself
  omega

def reporters (n root active remaining : Nat) : Finset (Fin n) :=
  Finset.univ.filter fun i => remaining ≤ (Player.numbered i).relative root ∧
    (Player.numbered i).relative root < active

def collectors (n root remaining : Nat) : Finset (Fin n) :=
  Finset.univ.filter fun i => (Player.numbered i).relative root < remaining

theorem mem_reporters {active remaining : Nat} {i : Fin n} :
    i ∈ reporters n root active remaining ↔ remaining ≤ (Player.numbered i).relative root ∧
      (Player.numbered i).relative root < active := by
  simp [reporters]

theorem mem_collectors {remaining : Nat} {i : Fin n} :
    i ∈ collectors n root remaining ↔ (Player.numbered i).relative root < remaining := by
  simp [collectors]

theorem not_mem_reporters {active remaining : Nat} {i : Fin n}
    (hi : i ∈ collectors n root remaining) : i ∉ reporters n root active remaining :=
  fun h => Nat.not_lt_of_le (mem_reporters.mp h).1 (mem_collectors.mp hi)

def afterRound (lengths : List (Option Nat)) (m root active remaining : Nat)
    (s u : Fin n → Summation T) (i : Fin n) : Summation T :=
  if i ∈ collectors n root remaining then u i
  else if i ∈ reporters n root active remaining then
    { s i with packed := Message.encodeRange lengths 0 m (s i).values }
  else s i

section AfterRound

variable {active remaining : Nat} {s u : Fin n → Summation T} {i : Fin n}

omit [Modular T] in
theorem afterRound_collector (h : i ∈ collectors n root remaining) :
    afterRound lengths m root active remaining s u i = u i := if_pos h

omit [Modular T] in
theorem afterRound_reporter (h : i ∈ reporters n root active remaining) :
    afterRound lengths m root active remaining s u i =
      { s i with packed := Message.encodeRange lengths 0 m (s i).values } := by
  rw [afterRound, if_neg fun hi => not_mem_reporters hi h, if_pos h]

omit [Modular T] in
theorem afterRound_idle (h : i ∉ collectors n root remaining)
    (h' : i ∉ reporters n root active remaining) :
    afterRound lengths m root active remaining s u i = s i := by
  rw [afterRound, if_neg h, if_neg h']

end AfterRound

theorem climbed_afterRound {active remaining : Nat} (hr : 0 < remaining) {owner : Fin n → Nat}
    {s u : Fin n → Summation T} (hs : Climbed q m x root active owner s)
    (hu : ∀ i ∈ collectors n root remaining, Shows q m x (u i).values fun _ =>
      owned (fun j => owner j % remaining) ((Player.numbered i).relative root)) :
    Climbed q m x root remaining (fun j => owner j % remaining)
      (afterRound lengths m root active remaining s u) where
  owner_lt j := Nat.mod_lt _ hr
  shows i := by
    by_cases hi : i ∈ collectors n root remaining
    · rw [afterRound_collector hi]
      exact ⟨_, hu i hi, fun _ => rfl⟩
    · obtain ⟨W, hW, -⟩ := hs.shows i
      refine ⟨W, ?_, fun h => absurd (mem_collectors.mpr h) hi⟩
      by_cases hi' : i ∈ reporters n root active remaining
      · rw [afterRound_reporter hi']
        exact hW
      · rw [afterRound_idle hi hi']
        exact hW

/-- In one round up the tree the positions that stay active take in the inputs of the
others. -/
theorem reduceRound_accord (hcap : capacity ≠ some 0) (f : Faithful T lengths q m x)
    (hroot : root < n) (hn : 2 * n < wordRange) {active remaining : Nat}
    (hr : 0 < remaining) (hra : remaining < active) (han : active ≤ n) {owner : Fin n → Nat}
    {s : Fin n → Summation T} (hs : Climbed q m x root active owner s) (t : Fin n → Tape) :
    ∃ s', Accord capacity
        (fun i => reduceRound (Player.numbered i) root lengths ⟨active, remaining⟩) s t
        (fun _ => ()) s' t ∧
      Climbed q m x root remaining (fun j => owner j % remaining) s' := by
  have hlen : ∀ i, (s i).values.length = m := fun i => (hs.shows i).choose_spec.1.length
  have hcollect : ∀ i, ∃ u : Summation T, i ∈ collectors n root remaining →
      (absorbEach .add lengths
        ((TreeRound.sources ⟨active, remaining⟩ ((Player.numbered i).relative root)).map fun p =>
          Message.encodeRange lengths 0 m (s (place hroot p)).values) :
        Action (Summation T) Unit).run.run (s i) = .done (.ok (), u) ∧
      Shows q m x u.values fun _ =>
        owned (fun j => owner j % remaining) ((Player.numbered i).relative root) := by
    intro i
    by_cases hi : i ∈ collectors n root remaining
    · obtain ⟨u, hu⟩ := collect_shows f hroot hn hr hra han hs (mem_collectors.mp hi)
      exact ⟨u, fun _ => hu⟩
    · exact ⟨s i, fun h => absurd h hi⟩
  choose u hu using hcollect
  refine ⟨afterRound lengths m root active remaining s u, ?_,
    climbed_afterRound hr hs fun i hi => (hu i hi).2⟩
  refine leads_exchange hcap (reporters n root active remaining) (collectors n root remaining)
    (fun i => Message.encodeRange lengths 0 m (s i).values) (fun _ => .atOnce)
    (fun i => .ofSize ((TreeRound.sources ⟨active, remaining⟩
      ((Player.numbered i).relative root)).map ((Player.numbered i).absolute root)).length)
    (fun _ => openingPhase) (fun _ => openingPhase)
    (fun i => [(place hroot ((Player.numbered i).relative root % remaining)).val])
    (fun i => (TreeRound.sources ⟨active, remaining⟩ ((Player.numbered i).relative root)).map
      ((Player.numbered i).absolute root))
    (fun i => Action.after { s i with packed := Message.encodeRange lengths 0 m (s i).values } pure)
    (fun _ _ => .ok ())
    (fun i => Action.after (s i) fun messages => absorbEach .add lengths messages) _ _ t
    (fun i hi => ?_) (fun i hi => ?_) (fun a b => ?_)
    (fun i hi => target_others hroot hn hr (mem_reporters.mp hi).1)
    (fun i hi => sources_others hroot hn hr han (mem_collectors.mp hi)) (fun _ _ _ _ => rfl)
    fun i => ?_
  · obtain ⟨hlow, hhigh⟩ := mem_reporters.mp hi
    rw [run_report hlow hhigh hroot, hlen i]
    rfl
  · rw [if_neg (not_mem_reporters hi)]
    exact run_collect (mem_collectors.mp hi)
  · rw [mem_reporters, mem_collectors]
    exact report_iff hroot hn hr hra han a b
  · show Protocol.done (Except.ok (), afterRound lengths m root active remaining s u i) = _
    by_cases hi : i ∈ collectors n root remaining
    · have hlist : (TreeRound.sources ⟨active, remaining⟩ ((Player.numbered i).relative root)).map
          (byNumber (fun i => Message.encodeRange lengths 0 m (s i).values) ∘
            (Player.numbered i).absolute root) =
          (TreeRound.sources ⟨active, remaining⟩ ((Player.numbered i).relative root)).map fun p =>
            Message.encodeRange lengths 0 m (s (place hroot p)).values :=
        List.map_congr_left fun p _ => byNumber_val _ (place hroot p)
      rw [afterRound_collector hi, if_pos hi, List.map_map, hlist]
      exact (hu i hi).1.symm
    · rw [if_neg hi]
      by_cases hi' : i ∈ reporters n root active remaining
      · rw [afterRound_reporter hi', if_pos hi']
        rfl
      · have hlow : remaining ≤ (Player.numbered i).relative root :=
          not_lt.mp (mt mem_collectors.mpr hi)
        have hhigh : active ≤ (Player.numbered i).relative root :=
          not_lt.mp fun h => hi' (mem_reporters.mpr ⟨hlow, h⟩)
        rw [afterRound_idle hi hi', if_neg hi', run_idle hlow hhigh]

theorem climbed_input (hroot : root < n) (hn : 2 * n < wordRange) {s : Fin n → Summation T}
    (hs : ∀ i, Shows q m x (s i).values fun _ => {i}) :
    Climbed q m x root n (fun j => (Player.numbered j).relative root) s where
  owner_lt := relative_lt hroot hn
  shows i := by
    refine ⟨{i}, hs i, fun _ => ?_⟩
    ext j
    rw [Finset.mem_singleton, mem_owned]
    constructor
    · exact fun h => h ▸ rfl
    · intro h
      rw [← place_relative hroot hn j, h, place_relative hroot hn i]

/-- After all rounds up the tree every input belongs to the root. -/
theorem reduceUp_accord (hcap : capacity ≠ some 0) (f : Faithful T lengths q m x)
    (hroot : root < n) (hn : 2 * n < wordRange) {fanIn active : Nat}
    (hf : 2 ≤ fanIn ∨ active = 1) (ha : 0 < active) (han : active ≤ n) {owner : Fin n → Nat}
    {s : Fin n → Summation T} (hs : Climbed q m x root active owner s) (t : Fin n → Tape) :
    ∃ s', Accord capacity
        (fun i => reduceUp (Player.numbered i) root lengths (treeRounds fanIn active)) s t
        (fun _ => ()) s' t ∧
      Climbed q m x root 1 (fun _ => 0) s' := by
  induction active using Nat.strong_induction_on generalizing owner s with
  | _ active ih =>
    by_cases hone : active = 1
    · subst hone
      obtain rfl : owner = fun _ => 0 := funext fun j => Nat.lt_one_iff.mp (hs.owner_lt j)
      rw [treeRounds_one]
      exact ⟨s, Accord.pure _ s t, hs⟩
    · have htwo : 2 ≤ fanIn := hf.resolve_right hone
      obtain ⟨remaining, hr, hra, hrounds⟩ := treeRounds_cons htwo (show 2 ≤ active by omega)
      obtain ⟨u, hu, hus⟩ := reduceRound_accord hcap f hroot hn hr hra han hs t
      obtain ⟨v, hv, hvs⟩ := ih remaining hra (.inl htwo) hr (by omega) hus
      rw [hrounds]
      exact ⟨v, hu.bind hv, hvs⟩

end Summation

theorem mem_treeChildren {fanOut players p c : Nat} (hf : 0 < fanOut) :
    c ∈ treeChildren fanOut players p ↔ c < players ∧ treeParent fanOut c = p ∧ c ≠ p := by
  have hdiv : p * fanOut ≤ c ∧ c < p * fanOut + fanOut ↔ c / fanOut = p := by
    rw [← Nat.succ_mul, ← Nat.le_div_iff_mul_le hf, ← Nat.div_lt_iff_lt_mul hf]
    omega
  simp only [treeChildren, treeSpan, treeParent, List.mem_filter, List.mem_range'_1, bne_iff_ne]
  rw [← hdiv]
  omega

theorem treeChildren_nodup (fanOut players p : Nat) : (treeChildren fanOut players p).Nodup :=
  (List.nodup_range' 1).filter _

theorem treeParent_lt {fanOut p : Nat} (hf : 2 ≤ fanOut) (hp : 0 < p) :
    treeParent fanOut p < p := Nat.div_lt_self hp hf

namespace Summation

open World Player

variable {lengths : List (Option Nat)} {root fanOut : Nat}

/-- A party is told by its parent, and by nobody else. -/
theorem mem_children_iff (hroot : root < n) (hn : 2 * n < wordRange) (hfan : 0 < fanOut)
    (htwo : 1 < n → 2 ≤ fanOut) (a b : Fin n) :
    b.val ∈ (treeChildren fanOut n ((Player.numbered a).relative root)).map
        ((Player.numbered a).absolute root) ↔
      0 < (Player.numbered b).relative root ∧
        treeParent fanOut ((Player.numbered b).relative root) =
          (Player.numbered a).relative root := by
  have hb := relative_lt hroot hn b
  rw [mem_map_absolute hroot hn a b fun c hc => ((mem_treeChildren hfan).mp hc).1,
    mem_treeChildren hfan]
  constructor
  · rintro ⟨-, hparent, hne⟩
    refine ⟨Nat.pos_of_ne_zero fun hzero => hne ?_, hparent⟩
    rw [← hparent, hzero, treeParent, Nat.zero_div]
  · rintro ⟨hpos, hparent⟩
    have hlt := treeParent_lt (htwo (by omega)) hpos
    exact ⟨hb, hparent, by omega⟩

theorem children_others (hroot : root < n) (hn : 2 * n < wordRange) (hfan : 0 < fanOut)
    (a : Fin n) :
    ((treeChildren fanOut n ((Player.numbered a).relative root)).map
        ((Player.numbered a).absolute root)).Nodup ∧
      ∀ x ∈ (treeChildren fanOut n ((Player.numbered a).relative root)).map
        ((Player.numbered a).absolute root), x < n ∧ x ≠ a := by
  refine ⟨map_absolute_nodup hroot hn a (fun c hc => ((mem_treeChildren hfan).mp hc).1)
    (treeChildren_nodup fanOut n _), fun x hx => ?_⟩
  obtain ⟨c, hc, rfl⟩ := List.mem_map.mp hx
  obtain ⟨hcn, -, hca⟩ := (mem_treeChildren hfan).mp hc
  refine ⟨(place hroot c).isLt, fun h => hca ?_⟩
  rw [← relative_place hroot hn hcn, show place hroot c = a from Fin.ext h]

section Down

variable {β : Type} {message : Bytes} {p knowing : Fin n → Protocol β} {result : Fin n → β}
  {settlement : Fin n → Settlement} {heard : Fin n → Except ChannelError (List Bytes) → Protocol β}
  {told : Fin n → Except ChannelError Unit → Protocol β}

structure Telling (hroot : root < n) (fanOut : Nat) (message : Bytes)
    (p knowing : Fin n → Protocol β) (result : Fin n → β) (settlement : Fin n → Settlement)
    (heard : Fin n → Except ChannelError (List Bytes) → Protocol β)
    (told : Fin n → Except ChannelError Unit → Protocol β) : Prop where
  root_knows (i : Fin n) : (Player.numbered i).relative root = 0 → p i = knowing i
  waits (i : Fin n) : (Player.numbered i).relative root ≠ 0 → p i = .gather .atOnce openingPhase
    [(place hroot (treeParent fanOut ((Player.numbered i).relative root))).val]
    (fun _ => .ok ()) (heard i)
  hears (i : Fin n) : (Player.numbered i).relative root ≠ 0 → heard i (.ok [message]) = knowing i
  passes (i : Fin n) : knowing i = .scatter (settlement i) openingPhase
    (((treeChildren fanOut n ((Player.numbered i).relative root)).map
      ((Player.numbered i).absolute root)).map fun child => (child, message)) (told i)
  ends (i : Fin n) : told i (.ok ()) = .done (result i)

/-- The parties at positions below `k` are done, and their children know the message. -/
def level (root fanOut : Nat) (p knowing : Fin n → Protocol β) (result : Fin n → β) (k : Nat)
    (i : Fin n) : Protocol β :=
  if (Player.numbered i).relative root < k then .done (result i)
  else if (Player.numbered i).relative root = 0 ∨
      treeParent fanOut ((Player.numbered i).relative root) < k then knowing i
  else p i

theorem level_of_lt {k : Nat} {i : Fin n} (h : (Player.numbered i).relative root < k) :
    level root fanOut p knowing result k i = .done (result i) := if_pos h

theorem level_of_knowing {k : Nat} {i : Fin n} (h : ¬ (Player.numbered i).relative root < k)
    (h' : (Player.numbered i).relative root = 0 ∨
      treeParent fanOut ((Player.numbered i).relative root) < k) :
    level root fanOut p knowing result k i = knowing i := (if_neg h).trans (if_pos h')

theorem level_of_waiting {k : Nat} {i : Fin n} (h : ¬ (Player.numbered i).relative root < k)
    (h' : ¬ ((Player.numbered i).relative root = 0 ∨
      treeParent fanOut ((Player.numbered i).relative root) < k)) :
    level root fanOut p knowing result k i = p i := (if_neg h).trans (if_neg h')

theorem Telling.level_zero {hroot : root < n}
    (h : Telling hroot fanOut message p knowing result settlement heard told) :
    level root fanOut p knowing result 0 = p := by
  funext i
  by_cases hi : (Player.numbered i).relative root = 0
  · rw [level_of_knowing (by omega) (.inl hi), h.root_knows i hi]
  · exact level_of_waiting (by omega) (by omega)

def listeners (n root fanOut k : Nat) : Finset (Fin n) :=
  Finset.univ.filter fun b => 0 < (Player.numbered b).relative root ∧
    treeParent fanOut ((Player.numbered b).relative root) = k

theorem mem_listeners {k : Nat} {b : Fin n} :
    b ∈ listeners n root fanOut k ↔ 0 < (Player.numbered b).relative root ∧
      treeParent fanOut ((Player.numbered b).relative root) = k := by
  simp [listeners]

theorem lt_of_mem_listeners (hroot : root < n) (hn : 2 * n < wordRange)
    (htwo : 1 < n → 2 ≤ fanOut) {k : Nat} {b : Fin n} (hb : b ∈ listeners n root fanOut k) :
    k < (Player.numbered b).relative root := by
  obtain ⟨hpos, rfl⟩ := mem_listeners.mp hb
  have hlt := relative_lt hroot hn b
  exact treeParent_lt (htwo (by omega)) hpos

theorem tell_iff (hroot : root < n) (hn : 2 * n < wordRange) (hfan : 0 < fanOut)
    (htwo : 1 < n → 2 ≤ fanOut) {k : Nat} (hk : k < n) (a b : Fin n) :
    a ∈ ({place hroot k} : Finset (Fin n)) ∧
        b.val ∈ (treeChildren fanOut n ((Player.numbered a).relative root)).map
          ((Player.numbered a).absolute root) ↔
      b ∈ listeners n root fanOut k ∧
        a.val ∈ [(place hroot (treeParent fanOut ((Player.numbered b).relative root))).val] := by
  have hplace : (Player.numbered (place hroot k)).relative root = k := relative_place hroot hn hk
  rw [mem_children_iff hroot hn hfan htwo, mem_listeners, Finset.mem_singleton,
    List.mem_singleton, Fin.val_inj]
  constructor
  · rintro ⟨rfl, hpos, hparent⟩
    rw [hplace] at hparent
    exact ⟨⟨hpos, hparent⟩, by rw [hparent]⟩
  · rintro ⟨⟨hpos, hparent⟩, rfl⟩
    rw [hparent, hplace]
    exact ⟨rfl, hpos, rfl⟩

theorem parent_others (hroot : root < n) (hn : 2 * n < wordRange)
    (htwo : 1 < n → 2 ≤ fanOut) {k : Nat} (hk : k < n) {b : Fin n}
    (hb : b ∈ listeners n root fanOut k) :
    [(place hroot (treeParent fanOut ((Player.numbered b).relative root))).val].Nodup ∧
      ∀ a ∈ [(place hroot (treeParent fanOut ((Player.numbered b).relative root))).val],
        a < n ∧ a ≠ b := by
  have hbk := lt_of_mem_listeners hroot hn htwo hb
  refine ⟨List.nodup_singleton _, fun a ha => ?_⟩
  obtain rfl := List.mem_singleton.mp ha
  rw [(mem_listeners.mp hb).2]
  refine ⟨Fin.isLt _, fun hself => ?_⟩
  have hb' : place hroot k = b := Fin.ext hself
  rw [← hb', relative_place hroot hn hk] at hbk
  exact Nat.lt_irrefl k hbk

theorem level_succ_of_other {k : Nat} {i : Fin n} (hne : (Player.numbered i).relative root ≠ k)
    (hi : i ∉ listeners n root fanOut k) :
    level root fanOut p knowing result (k + 1) i = level root fanOut p knowing result k i := by
  rw [mem_listeners] at hi
  unfold level
  have hdone : (Player.numbered i).relative root < k + 1 ↔
      (Player.numbered i).relative root < k := by omega
  have hknows : (Player.numbered i).relative root = 0 ∨
      treeParent fanOut ((Player.numbered i).relative root) < k + 1 ↔
        (Player.numbered i).relative root = 0 ∨
          treeParent fanOut ((Player.numbered i).relative root) < k := by omega
  exact if_congr hdone rfl (if_congr hknows rfl rfl)

theorem Telling.leads_level {hroot : root < n}
    (h : Telling hroot fanOut message p knowing result settlement heard told)
    (hcap : capacity ≠ some 0) (hn : 2 * n < wordRange) (hfan : 0 < fanOut)
    (htwo : 1 < n → 2 ≤ fanOut) (t : Fin n → Tape) {k : Nat} (hk : k < n) :
    ∃ l, Leads capacity l (start (level root fanOut p knowing result k) t .empty)
      (start (level root fanOut p knowing result (k + 1)) t .empty) := by
  have hplace : (Player.numbered (place hroot k)).relative root = k := relative_place hroot hn hk
  have hlater : ∀ b ∈ listeners n root fanOut k, k < (Player.numbered b).relative root :=
    fun b hb => lt_of_mem_listeners hroot hn htwo hb
  refine leads_exchange hcap {place hroot k} (listeners n root fanOut k) (fun _ => message)
    settlement (fun _ => .atOnce) (fun _ => openingPhase) (fun _ => openingPhase)
    (fun a => (treeChildren fanOut n ((Player.numbered a).relative root)).map
      ((Player.numbered a).absolute root))
    (fun b => [(place hroot (treeParent fanOut ((Player.numbered b).relative root))).val]) told
    (fun _ _ => .ok ()) heard _ _ t (fun a ha => ?_) (fun b hb => ?_)
    (tell_iff hroot hn hfan htwo hk) (fun a _ => children_others hroot hn hfan a)
    (fun b hb => parent_others hroot hn htwo hk hb) (fun _ _ _ _ => rfl) fun j => ?_
  · obtain rfl := Finset.mem_singleton.mp ha
    rw [level_of_knowing hplace.not_lt, h.passes]
    rw [hplace]
    exact (Nat.eq_zero_or_pos k).imp_right fun hpos =>
      treeParent_lt (htwo (by omega)) hpos
  · have hbk := hlater b hb
    obtain ⟨hpos, hparent⟩ := mem_listeners.mp hb
    have hother : b ∉ ({place hroot k} : Finset (Fin n)) := by
      rw [Finset.mem_singleton]
      rintro rfl
      omega
    rw [if_neg hother, level_of_waiting (by omega) (by omega), h.waits b (by omega)]
  · by_cases hj : j ∈ listeners n root fanOut k
    · have hjk := hlater j hj
      obtain ⟨hpos, hparent⟩ := mem_listeners.mp hj
      rw [if_pos hj, List.map_singleton, byNumber_val, h.hears j (by omega)]
      exact level_of_knowing (by omega) (by omega)
    · rw [if_neg hj]
      by_cases hjk : j = place hroot k
      · rw [if_pos (Finset.mem_singleton.mpr hjk), h.ends, hjk]
        exact level_of_lt (hplace.trans_lt (Nat.lt_succ_self k))
      · rw [if_neg (mt Finset.mem_singleton.mp hjk)]
        refine level_succ_of_other (fun hpos => hjk ?_) hj
        rw [← place_relative hroot hn j, hpos]

/-- A message is told down the tree, from position to position. -/
theorem Telling.together {hroot : root < n}
    (h : Telling hroot fanOut message p knowing result settlement heard told)
    (hcap : capacity ≠ some 0) (hn : 2 * n < wordRange) (hfan : 0 < fanOut)
    (htwo : 1 < n → 2 ≤ fanOut) (t : Fin n → Tape) : Together capacity p t result t := by
  have hlevels : ∀ k ≤ n, ∃ l, Leads capacity l (start p t .empty)
      (start (level root fanOut p knowing result k) t .empty) := by
    intro k
    induction k with
    | zero =>
      intro _
      rw [h.level_zero]
      exact ⟨0, .nil _⟩
    | succ k ih =>
      intro hk
      obtain ⟨l, hl⟩ := ih (by omega)
      obtain ⟨l', hl'⟩ := h.leads_level hcap hn hfan htwo t hk
      exact ⟨l + l', hl.trans hl'⟩
  obtain ⟨l, hl⟩ := hlevels n le_rfl
  have hall : level root fanOut p knowing result n = fun i => .done (result i) :=
    funext fun i => level_of_lt (relative_lt hroot hn i)
  rw [hall] at hl
  exact ⟨l, hl⟩

end Down

section Tell

variable {T : Type} [Element T] {s s' : Summation T} {i : Fin n}

def passOn (i : Fin n) (root fanOut : Nat) (message : Bytes) (s : Summation T) :
    Protocol (Except Error Unit × Summation T) :=
  .scatter (.ofSize (treeSpan fanOut n ((Player.numbered i).relative root))) openingPhase
    (((treeChildren fanOut n ((Player.numbered i).relative root)).map
      ((Player.numbered i).absolute root)).map fun child => (child, message))
    (Action.after s pure)

theorem run_tellDown_root (h : (Player.numbered i).relative root = 0) :
    (tellDown (Player.numbered i) root fanOut lengths : Action (Summation T) Unit).run.run s =
      passOn i root fanOut (Message.encodeRange lengths 0 s.values.length s.values)
        { s with packed := Message.encodeRange lengths 0 s.values.length s.values } := by
  rw [tellDown, hearDown, if_pos h, Action.run_bind_done (run_packAll lengths s)]
  exact Action.run_scatter _ _ _ _

theorem run_tellDown_other (hroot : root < n) (h : (Player.numbered i).relative root ≠ 0) :
    (tellDown (Player.numbered i) root fanOut lengths : Action (Summation T) Unit).run.run s =
      .gather .atOnce openingPhase
        [(place hroot (treeParent fanOut ((Player.numbered i).relative root))).val]
        (fun _ => .ok ()) fun r => Action.after s (fun message => do
          absorbAll .replace lengths message
          Link.scatter (treeSpan fanOut n ((Player.numbered i).relative root)) openingPhase
            (((treeChildren fanOut n ((Player.numbered i).relative root)).map
              ((Player.numbered i).absolute root)).map fun child => (child, message)))
          (r.map fun messages => messages.headD []) := by
  rw [tellDown, hearDown, if_neg h, bind_assoc, Action.run_receive]
  simp only [bind_assoc, pure_bind]
  rfl

end Tell

/-- If everyone else can take over the message of the root, it is told to all of them. -/
theorem tellDown_run {T : Type} [Element T] {m : Nat} (hcap : capacity ≠ some 0)
    (hroot : root < n) (hn : 2 * n < wordRange) (hfan : 0 < fanOut)
    (htwo : 1 < n → 2 ≤ fanOut) {s u : Fin n → Summation T}
    (hlen : ∀ i, (s i).values.length = m)
    (hu : ∀ i, (absorbAll .replace lengths
        (Message.encodeRange lengths 0 m (s (place hroot 0)).values) :
        Action (Summation T) Unit).run.run (s i) = .done (.ok (), u i)) (t : Fin n → Tape) :
    Accord capacity (fun i => tellDown (Player.numbered i) root fanOut lengths) s t (fun _ => ())
      (fun i => if (Player.numbered i).relative root = 0 then
        { s i with packed := Message.encodeRange lengths 0 m (s (place hroot 0)).values }
      else u i) t := by
  let pos : Fin n → Nat := fun i => (Player.numbered i).relative root
  let message : Bytes := Message.encodeRange lengths 0 m (s (place hroot 0)).values
  let s' : Fin n → Summation T := fun i =>
    if pos i = 0 then { s i with packed := message } else u i
  refine Telling.together ⟨fun i hi => ?_,
    fun i hi => run_tellDown_other hroot hi, fun i hi => ?_,
    fun i => (rfl : passOn i root fanOut message (s' i) = _), fun i => rfl⟩ hcap hn hfan htwo t
  · have hi' : i = place hroot 0 := by
      rw [← place_relative hroot hn i]
      exact congrArg _ hi
    have hm : Message.encodeRange lengths 0 (s i).values.length (s i).values = message := by
      rw [hlen, hi']
    rw [run_tellDown_root hi, hm]
    simp only [s', if_pos (show pos i = 0 from hi)]
  · simp only [s', if_neg (show ¬ pos i = 0 from hi)]
    show ((absorbAll .replace lengths message >>= _ : Action (Summation T) Unit).run.run
      (s i)) = _
    rw [Action.run_bind_done (hu i)]
    exact Action.run_scatter _ _ _ _

variable {T : Type} [MacElement T] [Modular T] {q : Nat → Nat} {m : Nat} {x : Fin n → List T}

/-- The sum of the root is told to everyone. -/
theorem tellDown_accord (hcap : capacity ≠ some 0) (f : Faithful T lengths q m x)
    (hroot : root < n) (hn : 2 * n < wordRange) (hfan : 0 < fanOut)
    (htwo : 1 < n → 2 ≤ fanOut) {s : Fin n → Summation T} {W : Fin n → Finset (Fin n)}
    (hs : ∀ i, Shows q m x (s i).values fun _ => W i) (hW : W (place hroot 0) = Finset.univ)
    (t : Fin n → Tape) :
    ∃ s', Accord capacity (fun i => tellDown (Player.numbered i) root fanOut lengths) s t
        (fun _ => ()) s' t ∧
      ∀ i, Shows q m x (s' i).values fun _ => Finset.univ := by
  have hsum : Shows q m x (s (place hroot 0)).values fun _ => Finset.univ := hW ▸ hs _
  choose u hu hus using fun i => run_absorbAll f (U := fun _ => Finset.univ) (hs i) hsum .replace
    (fun h => nomatch h) fun _ _ => rfl
  refine ⟨_, tellDown_run hcap hroot hn hfan htwo (fun i => (hs i).length) hu t, fun i => ?_⟩
  split
  · rename_i hi
    have hi' : i = place hroot 0 := by
      rw [← place_relative hroot hn i]
      exact congrArg _ hi
    rw [hi']
    exact hsum
  · exact hus i

end Summation

end AuthShares
