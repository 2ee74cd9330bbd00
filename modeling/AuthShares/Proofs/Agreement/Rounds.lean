import AuthShares.Proofs.Agreement.Exchanges

/-!
# The rounds of an opening

An opening goes through three rounds: the commitments, the comparison of what was received,
which is left out for two parties alone, and the openings. Each leaves a mark in what a
party has done. A party whose comparison went well received what every other party did
that took part in it.
-/

set_option autoImplicit false

namespace AuthShares

variable {n : Nat} {α β : Type}

namespace Interaction

variable [Wire α]

def digests (all : List (List α)) : List Bytes32 :=
  all.map fun list => Blake3.hash (Wire.encode list)

def compareViews (player : Player) (phase : String) (all : List (List α)) :
    Interaction (List (List α)) :=
  if player.players ≤ 2 then
    return all
  else do
    let views ← Link.broadcast player (phase ++ " verification") (digests all)
    if views.all (· == digests all) then return all else throw .inconsistentBroadcast

theorem echoBroadcast_eq (player : Player) (phase : String) (xs : List α) :
    echoBroadcast player phase xs =
      liftM (Link.broadcast player phase xs) >>= compareViews player phase := rfl

def openWith (player : Player) (phase : String) (contribute : Interaction α)
    (finish : List α → β) : Interaction β := do
  let value ← contribute
  let values ← commitThenOpen player phase value
  return finish values

theorem commitThenOpen_eq (player : Player) (phase : String) (value : α) :
    commitThenOpen player phase value = openWith player phase (pure value) id := by
  simp [openWith]

theorem tossCoins_eq (player : Player) :
    tossCoins player = openWith player "RNG" draw fun contributions =>
      Generator.ofKey (contributions.foldl addBits zeroBytes) := rfl

def committed (player : Player) (phase : String) (contribute : Interaction α) :
    Interaction (α × Bytes32 × List (List Bytes32)) := do
  let value ← contribute
  let nonce ← draw
  let all ← Link.broadcast player (phase ++ " comm") [commit (committedBytes value nonce player.me)]
  return (value, nonce, all)

def verified (player : Player) (phase : String) (contribute : Interaction α) :
    Interaction (α × Bytes32 × List (List Bytes32)) := do
  let value ← contribute
  let nonce ← draw
  let all ← echoBroadcast player (phase ++ " comm") [commit (committedBytes value nonce player.me)]
  return (value, nonce, all)

def opened (player : Player) (phase : String) (contribute : Interaction α) :
    Interaction (List (List Bytes32) × List (List (α × Bytes32))) := do
  let value ← contribute
  let nonce ← draw
  let commitments ← echoBroadcast player (phase ++ " comm")
    [commit (committedBytes value nonce player.me)]
  let openings ← Link.broadcast player (phase ++ " open") [(value, nonce)]
  return (commitments, openings)

variable (player : Player) (phase : String) (contribute : Interaction α) (finish : List α → β)

theorem verified_eq : verified player phase contribute =
    committed player phase contribute >>= fun (value, nonce, all) => do
      let all ← compareViews player (phase ++ " comm") all
      return (value, nonce, all) := by
  simp [verified, committed, echoBroadcast_eq]

theorem opened_eq : opened player phase contribute =
    verified player phase contribute >>= fun (value, nonce, commitments) => do
      let openings ← Link.broadcast player (phase ++ " open") [(value, nonce)]
      return (commitments, openings) := by
  simp [opened, verified]

theorem openWith_eq : openWith player phase contribute finish =
    opened player phase contribute >>= fun (commitments, openings) => do
      let values ← ExceptT.mk (Protocol.done (checkOpenings player.me 0 (commitments.zip openings)))
      return finish values := by
  simp [openWith, opened, commitThenOpen]

/-- With more than two parties, the digests of what was received go out next. -/
theorem openWith_committed : ∃ rest : α × Bytes32 × List (List Bytes32) → Interaction β,
    openWith player phase contribute finish = committed player phase contribute >>= rest ∧
      ∀ x, 2 < player.players → ∃ f, rest x =
        liftM (Link.broadcast player (phase ++ " comm" ++ " verification") (digests x.2.2)) >>= f := by
  refine ⟨_, by rw [openWith_eq, opened_eq, verified_eq, bind_assoc, bind_assoc], ?_⟩
  rintro ⟨value, nonce, all⟩ hplayers
  simp only [compareViews, if_neg (Nat.not_le.mpr hplayers), bind_assoc]
  exact ⟨_, rfl⟩

def Gives {γ : Type} (m : Interaction γ) (t : Tape) (a : γ) (t' : Tape) : Prop :=
  ∀ log b u, Succeeds m t log b u → log = [] ∧ b = a ∧ u = t'

theorem gives_pure {γ : Type} (a : γ) (t : Tape) : Gives (pure a) t a t :=
  fun _ _ _ h => h.of_pure

theorem gives_draw (t : Tape) : Gives draw t (t 0) t.tail := fun _ _ _ h => h.of_draw

end Interaction

open Interaction

variable [Wire α] {i j : Fin n} {phase : String} {t t' u : Tape} {log : List Deed}
  {contribute : Interaction α} {v value : α} {r : Bytes32}

structure Compared (i : Fin n) (phase : String) (all : List (List α)) (log : List Deed) :
    Prop where
  few : n ≤ 2 → log = []
  many : 2 < n → ∃ views, Exchanged i (phase ++ " verification") (digests all) log views ∧
    ∀ view ∈ views, view = digests all

theorem Succeeds.of_compareViews {all all' : List (List α)}
    (h : Succeeds (compareViews (Player.numbered i) phase all) t log all' t') :
    all' = all ∧ t' = t ∧ Compared i phase all log := by
  by_cases hn : n ≤ 2
  · rw [compareViews, Player.numbered_players, if_pos hn] at h
    obtain ⟨rfl, rfl, rfl⟩ := h.of_pure
    exact ⟨rfl, rfl, fun _ => rfl, fun h => absurd hn (by omega)⟩
  · rw [compareViews, Player.numbered_players, if_neg hn] at h
    obtain ⟨views, l, l', u, rfl, hbroadcast, hrest⟩ := h.of_bind
    obtain ⟨rfl, hviews⟩ := hbroadcast.of_lift.of_broadcast
    split at hrest
    · rename_i hall
      obtain ⟨rfl, rfl, rfl⟩ := hrest.of_pure
      rw [List.append_nil]
      refine ⟨rfl, rfl, fun h => absurd h hn, fun _ => ⟨views, hviews, fun view hview => ?_⟩⟩
      exact eq_of_beq (List.all_eq_true.mp hall view hview)
    · obtain ⟨-, heq⟩ := Trail.of_done hrest
      cases heq

theorem Succeeds.of_committed {all : List (List Bytes32)} (hc : Gives contribute t value u)
    (h : Succeeds (committed (Player.numbered i) phase contribute) t log (v, r, all) t') :
    v = value ∧ r = u 0 ∧
      Exchanged i (phase ++ " comm") [commit (committedBytes value (u 0) i)] log all := by
  obtain ⟨_, l₁, l₂, _, rfl, hcontribute, h₁⟩ := h.of_bind
  obtain ⟨rfl, rfl, rfl⟩ := hc _ _ _ hcontribute
  obtain ⟨_, l₃, l₄, _, rfl, hdraw, h₂⟩ := h₁.of_bind
  obtain ⟨rfl, rfl, rfl⟩ := hdraw.of_draw
  obtain ⟨_, l₅, l₆, _, rfl, hbroadcast, h₃⟩ := h₂.of_bind
  obtain ⟨rfl, hall⟩ := hbroadcast.of_lift.of_broadcast
  obtain ⟨rfl, heq, rfl⟩ := h₃.of_pure
  cases heq
  rw [List.append_nil]
  exact ⟨rfl, rfl, hall⟩

theorem Succeeds.of_verified {all : List (List Bytes32)} (hc : Gives contribute t value u)
    (h : Succeeds (verified (Player.numbered i) phase contribute) t log (v, r, all) t') :
    v = value ∧ r = u 0 ∧ ∃ l l', log = l ++ l' ∧
      Exchanged i (phase ++ " comm") [commit (committedBytes value (u 0) i)] l all ∧
      Compared i (phase ++ " comm") all l' := by
  rw [verified_eq] at h
  obtain ⟨⟨_, _, _⟩, l, l', _, rfl, hcommitted, h₁⟩ := h.of_bind
  obtain ⟨rfl, rfl, hall⟩ := hcommitted.of_committed hc
  obtain ⟨_, l₁, l₂, _, rfl, hcompare, h₂⟩ := h₁.of_bind
  obtain ⟨rfl, rfl, hcompared⟩ := hcompare.of_compareViews
  obtain ⟨rfl, heq, rfl⟩ := h₂.of_pure
  cases heq
  rw [List.append_nil]
  exact ⟨rfl, rfl, l, l₁, rfl, hall, hcompared⟩

theorem Succeeds.of_opened {commitments : List (List Bytes32)}
    {openings : List (List (α × Bytes32))} (hc : Gives contribute t value u)
    (h : Succeeds (opened (Player.numbered i) phase contribute) t log (commitments, openings) t') :
    ∃ l l' l'', log = l ++ (l' ++ l'') ∧
      Exchanged i (phase ++ " comm") [commit (committedBytes value (u 0) i)] l commitments ∧
      Compared i (phase ++ " comm") commitments l' ∧
      Exchanged i (phase ++ " open") [(value, u 0)] l'' openings := by
  rw [opened_eq] at h
  obtain ⟨⟨_, _, _⟩, _, _, _, rfl, hverified, h₁⟩ := h.of_bind
  obtain ⟨rfl, rfl, l, l', rfl, hall, hcompared⟩ := hverified.of_verified hc
  obtain ⟨_, l₁, l₂, _, rfl, hbroadcast, h₂⟩ := h₁.of_bind
  obtain ⟨rfl, hopenings⟩ := hbroadcast.of_lift.of_broadcast
  obtain ⟨rfl, heq, rfl⟩ := h₂.of_pure
  cases heq
  exact ⟨l, l', l₁, by simp, hall, hcompared, hopenings⟩

theorem Compared.peel (hij : i ≠ j) {phase' : String} {all all' : List (List α)}
    {l l' k k' : List Deed} {q : List Bytes} (hi : Compared i phase all l)
    (hj : Compared j phase' all' k) (h : sentTo i (k ++ k') = heardFrom j (l ++ l') ++ q) :
    sentTo i k' = heardFrom j l' ++ q := by
  by_cases hn : n ≤ 2
  · simpa [hi.few hn, hj.few hn] using h
  · obtain ⟨views, hviews, -⟩ := hi.many (by omega)
    obtain ⟨views', hviews', -⟩ := hj.many (by omega)
    exact (hviews.peel hij hviews' h).2

theorem eq_of_map_eq {γ δ : Type} {f : γ → δ} {xs ys : List γ}
    (hf : ∀ x ∈ xs, ∀ y ∈ ys, f x = f y → x = y) (h : xs.map f = ys.map f) : xs = ys := by
  induction xs generalizing ys with
  | nil => exact (List.map_eq_nil_iff.mp h.symm).symm
  | cons x xs ih =>
    cases ys with
    | nil => cases h
    | cons y ys =>
      injection h with hxy hrest
      rw [hf x (by simp) y (by simp) hxy,
        ih (fun x hx y hy => hf x (by simp [hx]) y (by simp [hy])) hrest]

/-- A party that has compared what it received with all others received what any of them did. -/
theorem Compared.agree [LawfulWire α] (hn : n < wordRange) (hij : i ≠ j) {xs ys : List α}
    (hlen : ys.length = xs.length) (hsize : xs.length < wordRange) {all all' : List (List α)}
    {l l' l'' k k' : List Deed} {q q' : List Bytes} (hi : Exchanged i phase xs l all)
    (hviews : Compared i phase all l') (hj : Exchanged j phase ys k all')
    (hfirst : 2 < n → sentTo i k' = [] ∨ ∃ rest, sentTo i k' = Wire.encode (digests all') :: rest)
    (hji : sentTo i (k ++ k') = heardFrom j (l ++ (l' ++ l'')) ++ q)
    (hij' : sentTo j (l ++ (l' ++ l'')) = heardFrom i (k ++ k') ++ q')
    (hinj : 2 < n → ∀ list ∈ all', ∀ list' ∈ all,
      Blake3.hash (Wire.encode list) = Blake3.hash (Wire.encode list') → list = list') :
    all' = all := by
  obtain ⟨hheard, hrest⟩ := hi.peel hij hj hji
  by_cases hfew : n ≤ 2
  -- Two parties alone hold what each of them has sent to the other.
  · have hlist : all[j.val]? = some ys := hi.get_of_heard hij.symm hheard hlen hsize
    have hlist' : all'[i.val]? = some xs :=
      hj.get_of_heard hij (hj.peel hij.symm hi hij').1 hlen.symm (hlen ▸ hsize)
    refine List.ext_getElem? fun a => ?_
    by_cases ha : a < n
    · have hne := Fin.val_ne_of_ne hij
      have hcases : a = i.val ∨ a = j.val := by omega
      rcases hcases with rfl | rfl
      · rw [hlist', hi.own]
      · rw [hlist, hj.own]
    · rw [List.getElem?_eq_none (by rw [hj.length]; omega),
        List.getElem?_eq_none (by rw [hi.length]; omega)]
  -- What comes second from the other party can only be the digests of what that one received.
  · obtain ⟨views, hviews, hsame⟩ := hviews.many (by omega)
    obtain ⟨bs, _, hl', -⟩ := hviews.heard j hij.symm
    rw [heardFrom_append, hl'] at hrest
    rcases hfirst (by omega) with hnone | ⟨rest, hsome⟩
    · rw [hnone] at hrest
      cases hrest
    · obtain ⟨rfl, -⟩ := List.cons.inj (hsome.symm.trans hrest)
      have hlengths : (digests all').length = (digests all).length := by
        simp [digests, hi.length, hj.length]
      have hview := hviews.get_of_heard hij.symm hl' hlengths (by simpa [digests, hi.length])
      have hdigests := hsame _ (List.mem_of_getElem? hview)
      exact eq_of_map_eq (hinj (by omega)) hdigests

/-- What is committed to tells the value and the nonce, and the number of the party as far as
two bytes can hold it. -/
theorem committedBytes_eq_iff [LawfulWire α] {v v' : α} {r r' : Bytes32} {k k' : Nat} :
    committedBytes v r k = committedBytes v' r' k' ↔
      v = v' ∧ r = r' ∧ k % byteRange 2 = k' % byteRange 2 := by
  unfold committedBytes
  constructor
  · intro h
    rw [List.append_assoc, List.append_assoc] at h
    have hdecode := LawfulWire.decode_encode v (r.toList ++ (toLittleEndian 2 k).reverse)
    rw [h, LawfulWire.decode_encode] at hdecode
    obtain ⟨rfl, hrest⟩ := Prod.mk.inj (Option.some.inj hdecode)
    obtain ⟨hnonce, hparty⟩ := List.append_inj hrest (by simp)
    exact ⟨rfl, (Vector.toList_inj.mp hnonce).symm,
      toLittleEndian_eq_iff.mp (List.reverse_inj.mp hparty).symm⟩
  · rintro ⟨rfl, rfl, hparty⟩
    rw [toLittleEndian_eq_iff.mpr hparty]

theorem committedBytes_inj [LawfulWire α] {v v' : α} {r r' : Bytes32} {k : Nat}
    (h : committedBytes v r k = committedBytes v' r' k) : v = v' :=
  (committedBytes_eq_iff.mp h).1

theorem checkOpenings_eq_ok {me party : Nat} {pairs : List (List Bytes32 × List (α × Bytes32))}
    {values : List α} (h : checkOpenings me party pairs = .ok values) :
    values.length = pairs.length ∧
      ∀ (k : Nat) (pair : List Bytes32 × List (α × Bytes32)), pairs[k]? = some pair →
        ∃ c cs v r vs, pair = (c :: cs, (v, r) :: vs) ∧ values[k]? = some v ∧
          (party + k = me ∨ opens c (committedBytes v r (party + k))) := by
  induction pairs generalizing party values with
  | nil =>
    cases h
    exact ⟨rfl, fun k pair hk => by simp at hk⟩
  | cons pair pairs ih =>
    obtain ⟨_ | ⟨c, cs⟩, _ | ⟨⟨v, r⟩, vs⟩⟩ := pair
    · cases h
    · cases h
    · cases h
    · rw [checkOpenings] at h
      split at h
      · rename_i hmatch
        cases hrest : checkOpenings me (party + 1) pairs with
        | error e =>
          rw [hrest] at h
          cases h
        | ok rest =>
          rw [hrest] at h
          cases h
          obtain ⟨hlen, hget⟩ := ih hrest
          refine ⟨by simp [hlen], fun k pair hk => ?_⟩
          cases k with
          | zero =>
            obtain rfl : (c :: cs, (v, r) :: vs) = pair := by simpa using hk
            exact ⟨c, cs, v, r, vs, rfl, rfl, hmatch⟩
          | succ k =>
            have hplace : party + (k + 1) = party + 1 + k := by omega
            rw [hplace]
            exact hget k pair (by simpa using hk)
      · cases h

theorem checkOpenings_zip {commitments : List (List Bytes32)} {openings : List (List (α × Bytes32))}
    {values : List α} (hcommitments : commitments.length = n) (hopenings : openings.length = n)
    (h : checkOpenings i 0 (commitments.zip openings) = .ok values) :
    values.length = n ∧ ∀ k : Fin n, ∃ c cs v r vs, commitments[k.val]? = some (c :: cs) ∧
      openings[k.val]? = some ((v, r) :: vs) ∧ values[k.val]? = some v ∧
      (k = i ∨ opens c (committedBytes v r k)) := by
  obtain ⟨hlen, hget⟩ := checkOpenings_eq_ok h
  refine ⟨by simp [hlen, hcommitments, hopenings], fun k => ?_⟩
  have hk : k.val < commitments.length := hcommitments ▸ k.isLt
  have hk' : k.val < openings.length := hopenings ▸ k.isLt
  have hzip : (commitments.zip openings)[k.val]? = some (commitments[k.val], openings[k.val]) :=
    List.getElem?_zip_eq_some.mpr ⟨List.getElem?_eq_getElem hk, List.getElem?_eq_getElem hk'⟩
  obtain ⟨c, cs, v, r, vs, hpair, hv, hmatch⟩ := hget k _ hzip
  obtain ⟨hc, ho⟩ := Prod.mk.inj hpair
  rw [Nat.zero_add] at hmatch
  exact ⟨c, cs, v, r, vs, hc ▸ List.getElem?_eq_getElem hk, ho ▸ List.getElem?_eq_getElem hk', hv,
    hmatch.imp_left Fin.ext⟩

end AuthShares
